import Descent.Proofs.Lookahead
import Descent.Run.Parser

/-!
# What a run leaves as it is

A run only uses the operations of the stream, so it stays among any states that these do not lead
out of (`Stream.Closed`), as are the states of a stream over one text. It ends at the depth of
nesting at which it began, however it ends.

* `keeps_body`: what a shape does, for any way to run the segments inside that keeps this up.
* `Segment.keeps_run`: every run of a segment.
* `Segment.depth_run`: the depth, for all streams.
* `keeps_parse`: a whole parse.
-/
namespace Descent

open Descent.Stream

variable {lexer : Lexer} {α β : Type} {I : Stream lexer → Prop}

/-- No operation of a stream leads out of these states. -/
class Stream.Closed (I : Stream lexer → Prop) : Prop where
  look {s : Stream lexer} (h : I s) : I (stateOf (peek s))
  take {s : Stream lexer} (h : I s) : I (stateOf (next s))
  back {s t : Stream lexer} (hs : I s) (ht : I t) : I (s.returnTo t.checkpoint)
  nest {s : Stream lexer} (h : I s) (d : Nat) : I (s.atDepth d)
  note {s : Stream lexer} (h : I s) (e : Event) : I (s.record e)

instance (text : String) : Closed (Reachable text : Stream lexer → Prop) :=
  ⟨.look, .take, .back, .nest, .note⟩

instance : Closed (fun _ : Stream lexer => True) :=
  ⟨fun _ => trivial, fun _ => trivial, fun _ _ => trivial, fun _ _ => trivial, fun _ _ => trivial⟩

/-- Is it the event that a segment begins? -/
def Event.isEntry : Event → Bool
  | .entered .. => true
  | _ => false

/-- No operation of a run leads out of these states as long as it stays at one depth of nesting; a
segment that begins is noted with this depth. -/
class Stream.Steady (I : Stream lexer → Prop) : Prop where
  look {s : Stream lexer} (h : I s) : I (stateOf (peek s))
  take {s : Stream lexer} (h : I s) : I (stateOf (next s))
  back {s t : Stream lexer} (hs : I s) (ht : I t) : I (s.returnTo t.checkpoint)
  enter {s : Stream lexer} (h : I s) (label : String) (p : Position) :
    I (s.record (.entered label s.depth p))
  remark {s : Stream lexer} (h : I s) {e : Event} (he : e.isEntry = false) : I (s.record e)

instance [Closed I] : Steady I :=
  ⟨Closed.look, Closed.take, Closed.back, fun h _ _ => Closed.note h _, fun h _ _ =>
    Closed.note h _⟩

/-- The operation stays among the states of `I`, and ends at the depth at which it began. -/
def Keeps (I : Stream lexer → Prop) (x : Parse lexer α) : Prop :=
  ∀ s, I s → I (stateOf (x s)) ∧ (stateOf (x s)).depth = s.depth

/-! ## Operations -/

theorem keeps_pure (a : α) : Keeps I (pure a : Parse lexer α) := fun _ h => ⟨h, rfl⟩

theorem keeps_throw (e : Stop) : Keeps I (throw e : Parse lexer α) := fun _ h => ⟨h, rfl⟩

theorem keeps_refuse (e : ParseError) : Keeps I (Parse.refuse e : Parse lexer α) :=
  keeps_throw _

/-- What comes second may know which state the first operation ended in. -/
theorem keeps_bind_of {x : Parse lexer α} {f : α → Parse lexer β} (hx : Keeps I x)
    (hf : ∀ s a s', I s → x s = .ok a s' → Keeps I (f a)) :
    Keeps I (x >>= f) := by
  intro s hs
  obtain ⟨hr, hd⟩ := hx s hs
  rw [bind_apply]
  cases h : x s with
  | error e s' => rw [h] at hr hd; exact ⟨hr, hd⟩
  | ok a s' =>
    rw [h] at hr hd
    obtain ⟨hr', hd'⟩ := hf s a s' hs h s' hr
    exact ⟨hr', hd'.trans hd⟩

theorem keeps_bind {x : Parse lexer α} {f : α → Parse lexer β} (hx : Keeps I x)
    (hf : ∀ a, Keeps I (f a)) : Keeps I (x >>= f) :=
  keeps_bind_of hx fun _ a _ _ _ => hf a

theorem keeps_get_bind {f : Stream lexer → Parse lexer α}
    (hf : ∀ s, I s → Keeps I (f s)) : Keeps I (get >>= f) :=
  fun s hs => hf s hs s hs

theorem stateOf_ofPull (x : Pull lexer α) (s : Stream lexer) :
    stateOf (Parse.ofPull x s) = stateOf (x s) := by
  unfold Parse.ofPull
  cases x s <;> rfl

theorem stateOf_answerOf (x : Pull lexer α) (s : Stream lexer) :
    stateOf (answerOf x s) = stateOf (x s) := by
  unfold answerOf
  cases x s <;> rfl

theorem stateOf_outcomeOf (x : Parse lexer Outcome) (s : Stream lexer) :
    stateOf (outcomeOf x s) = stateOf (x s) := by
  unfold outcomeOf
  cases x s with
  | ok o s' => rfl
  | error e s' => cases e <;> rfl

theorem depth_handOut (s : Stream lexer) : s.handOut.depth = s.depth := by
  unfold handOut; split <;> rfl

/-- Reading of any kind stays among the states of the stream and at its depth. -/
def PullKeeps (I : Stream lexer → Prop) (x : Pull lexer α) : Prop :=
  ∀ s, I s → I (stateOf (x s)) ∧ (stateOf (x s)).depth = s.depth

theorem PullKeeps.ofPull {x : Pull lexer α} (h : PullKeeps I x) :
    Keeps I (Parse.ofPull x) := fun s hs => by
  rw [stateOf_ofPull]; exact h s hs

theorem PullKeeps.answerOf {x : Pull lexer α} (h : PullKeeps I x) :
    Keeps I (answerOf x) := fun s hs => by
  rw [stateOf_answerOf]; exact h s hs

theorem Keeps.outcomeOf {x : Parse lexer Outcome} (h : Keeps I x) : Keeps I (outcomeOf x) :=
  fun s hs => by rw [stateOf_outcomeOf]; exact h s hs

section

variable [Steady I]

theorem keeps_remark {e : Event} (he : e.isEntry = false) :
    Keeps I (Parse.record e : Parse lexer Unit) :=
  fun _ h => ⟨Steady.remark h he, rfl⟩

theorem keeps_returnTo {t : Stream lexer} (ht : I t) :
    Keeps I (modify (·.returnTo t.checkpoint) : Parse lexer Unit) :=
  fun _ h => ⟨Steady.back h ht, rfl⟩

theorem pullKeeps_peek : PullKeeps I (peek : Pull lexer (Option Token)) := fun s h =>
  ⟨Steady.look h, (peek_frame s).2⟩

theorem depth_next (s : Stream lexer) : (stateOf (next s)).depth = s.depth := by
  rw [← (peek_frame s).2, next_eq]
  cases peek s with
  | ok t s' => exact depth_handOut s'
  | error e s' => rfl

theorem depth_position (s : Stream lexer) : (stateOf (Stream.position s)).depth = s.depth := by
  rw [stateOf_position]
  exact (peek_frame s).2

theorem pullKeeps_next : PullKeeps I (next : Pull lexer (Option Token)) := fun s h =>
  ⟨Steady.take h, depth_next s⟩

theorem pullKeeps_atEnd : PullKeeps I (atEnd : Pull lexer Bool) := fun s h => by
  rw [stateOf_atEnd]; exact pullKeeps_peek s h

theorem pullKeeps_position : PullKeeps I (position : Pull lexer Position) := fun s h => by
  rw [stateOf_position]; exact pullKeeps_peek s h

theorem keeps_peek : Keeps I (Parse.peek : Parse lexer (Option Token)) := pullKeeps_peek.ofPull

theorem keeps_next : Keeps I (Parse.next : Parse lexer (Option Token)) := pullKeeps_next.ofPull

theorem keeps_atEnd : Keeps I (Parse.atEnd : Parse lexer Bool) := pullKeeps_atEnd.ofPull

theorem keeps_position : Keeps I (Parse.position : Parse lexer Position) :=
  pullKeeps_position.ofPull

theorem deeper_apply (x : Parse lexer α) (s : Stream lexer) :
    Parse.deeper x s =
      match x (s.atDepth (s.depth + 1)) with
      | .ok a s' => .ok a (s'.atDepth (s'.depth - 1))
      | .error e s' => .error e (s'.atDepth (s'.depth - 1)) := rfl

theorem ok_of_deeper {x : Parse lexer α} {s s' : Stream lexer} {a : α}
    (h : Parse.deeper x s = .ok a s') :
    ∃ t, x (s.atDepth (s.depth + 1)) = .ok a t ∧ s' = t.atDepth (t.depth - 1) := by
  rw [deeper_apply] at h
  split at h <;> cases h
  next t ht => exact ⟨t, ht, rfl⟩

theorem depth_atDepth (s : Stream lexer) (d : Nat) : (s.atDepth d).depth = d := rfl

omit [Steady I] in
/-- One level deeper the operation may stay among other states. -/
theorem keeps_deeper_of {J : Stream lexer → Prop} {x : Parse lexer α} (hx : Keeps J x)
    (hin : ∀ s, I s → J (s.atDepth (s.depth + 1)))
    (hout : ∀ s s', I s → J s' → s'.depth = s.depth + 1 → I (s'.atDepth s.depth)) :
    Keeps I (Parse.deeper x) := by
  intro s hs
  obtain ⟨hr, hd⟩ := hx _ (hin s hs)
  rw [deeper_apply]
  cases h : x (s.atDepth (s.depth + 1)) with
  | ok a s' | error e s' =>
    rw [h] at hr hd
    simp only [stateOf, depth_atDepth] at *
    rw [hd, Nat.add_sub_cancel]
    exact ⟨hout s s' hs hr hd, rfl⟩

omit [Steady I] in
theorem keeps_deeper [Closed I] {x : Parse lexer α} (hx : Keeps I x) : Keeps I (Parse.deeper x) :=
  keeps_deeper_of hx (fun _ hs => Closed.nest hs _) fun _ _ _ hs' _ => Closed.nest hs' _

theorem keeps_complaint (o : Outcome) : Keeps I (Parse.complaint o : Parse lexer ParseError) := by
  unfold Parse.complaint
  split
  · exact keeps_pure _
  · refine keeps_bind keeps_position fun p => keeps_bind keeps_peek fun t => ?_
    split <;> exact keeps_pure _

/-- The body of a segment that begins at `start`, with what becomes of its result. -/
def settled (options : Options) (start : Position) (body : Parse lexer Outcome) :
    Parse lexer Outcome := fun before =>
  match body before with
  | .error e behind => .error e (behind.returnTo before.checkpoint)
  | .ok o behind =>
    match o.verdict with
    | .matched data =>
      .ok (o.settleMatch data options ⟨start, start.latest behind.lastEnd⟩ before.offset
        behind.offset) behind
    | .failed f =>
      let o := o.settleFailure f before.offset behind.offset
      .ok o ((behind.returnTo before.checkpoint).record
        (.failed (options.label.getD "<segment>") before.depth o.progress f.message))

theorem settled_of_match {options : Options} {start : Position} {body : Parse lexer Outcome}
    {before behind : Stream lexer} {o : Outcome} (h : body before = .ok o behind)
    (hm : o.isMatch = true) :
    settled options start body before =
      .ok (o.settleMatch o.data? options ⟨start, start.latest behind.lastEnd⟩ before.offset
        behind.offset) behind := by
  obtain ⟨verdict, key, nesting, progress⟩ := o
  unfold settled
  rw [h]
  cases verdict with
  | matched data => rfl
  | failed f => cases hm

theorem settled_of_failure {options : Options} {start : Position} {body : Parse lexer Outcome}
    {before behind : Stream lexer} {o : Outcome} (h : body before = .ok o behind)
    (hm : o.isMatch = false) :
    ∃ f e, o.verdict = .failed f ∧ settled options start body before =
      .ok (o.settleFailure f before.offset behind.offset)
        ((behind.returnTo before.checkpoint).record e) := by
  obtain ⟨verdict, key, nesting, progress⟩ := o
  unfold settled
  rw [h]
  cases verdict with
  | matched data => cases hm
  | failed f => exact ⟨f, _, rfl, rfl⟩

/-- What a body was settled as: a match at its end, or a failure where it began. -/
theorem settled_cases {options : Options} {start : Position} {body : Parse lexer Outcome}
    {before s' : Stream lexer} {o : Outcome} (h : settled options start body before = .ok o s') :
    ∃ inside behind, body before = .ok inside behind ∧
      ((inside.isMatch = true ∧ s' = behind ∧ ∃ span,
          o = inside.settleMatch inside.data? options span before.offset behind.offset) ∨
        ∃ f e, inside.verdict = .failed f ∧
          o = inside.settleFailure f before.offset behind.offset ∧
          s' = (behind.returnTo before.checkpoint).record e) := by
  cases hb : body before with
  | error e behind => rw [settled, hb] at h; cases h
  | ok inside behind =>
    refine ⟨inside, behind, rfl, ?_⟩
    cases hm : inside.isMatch with
    | true =>
      rw [settled_of_match hb hm] at h
      cases h
      exact Or.inl ⟨rfl, rfl, _, rfl⟩
    | false =>
      obtain ⟨f, e, hf, hs⟩ : ∃ f e, _ ∧ settled options start body before = _ :=
        settled_of_failure hb hm
      rw [hs] at h
      cases h
      exact Or.inr ⟨f, e, hf, rfl, rfl⟩

theorem attempt_eq (options : Options) (body : Parse lexer Outcome) :
    attempt options body = (do
      let start ← Parse.position
      Parse.record (.entered (options.label.getD "<segment>") (← get).depth start)
      settled options start body) := rfl

theorem keeps_settled (options : Options) (start : Position) {body : Parse lexer Outcome}
    (hb : Keeps I body) : Keeps I (settled options start body) := by
  intro s hs
  obtain ⟨hr, hd⟩ := hb s hs
  unfold settled
  cases h : body s with
  | error e s' => rw [h] at hr hd; exact ⟨Steady.back hr hs, hd⟩
  | ok o s' =>
    rw [h] at hr hd
    simp only
    split
    · exact ⟨hr, hd⟩
    · exact ⟨Steady.remark (Steady.back hr hs) rfl, hd⟩

theorem keeps_attempt (options : Options) {body : Parse lexer Outcome} (hb : Keeps I body) :
    Keeps I (attempt options body) :=
  keeps_bind keeps_position fun start s hs =>
    keeps_settled options start hb (s.record _) (Steady.enter hs _ start)

/-! ## Repetitions -/

theorem keeps_required {element : Parse lexer Outcome} (he : Keeps I element) :
    Keeps I (required element) := by
  refine keeps_bind he fun o => ?_
  split
  · exact keeps_pure o
  · exact keeps_bind (keeps_complaint o) keeps_refuse

theorem keeps_requiredStep {element : Parse lexer Outcome} (he : Keeps I element) :
    Keeps I (requiredStep element) := by
  refine keeps_bind keeps_position fun start => keeps_bind (keeps_required he) fun o => ?_
  split
  · exact keeps_refuse _
  · exact keeps_pure o

theorem keeps_elementsUntilEnd {element : Parse lexer Outcome} (he : Keeps I element)
    (fuel : Nat) : Keeps I (elementsUntilEnd element fuel) := by
  induction fuel with
  | zero => exact keeps_throw _
  | succ fuel ih =>
    refine keeps_bind keeps_atEnd fun done => ?_
    split
    · exact keeps_pure _
    · exact keeps_bind (keeps_requiredStep he) fun o => keeps_bind ih fun _ => keeps_pure _

theorem keeps_elementsUntil {terminator element : Parse lexer Outcome}
    (ht : Keeps I terminator) (he : Keeps I element) (fuel : Nat) :
    Keeps I (elementsUntil terminator element fuel) := by
  induction fuel with
  | zero => exact keeps_throw _
  | succ fuel ih =>
    refine keeps_bind ht fun o => ?_
    split
    · exact keeps_pure _
    · refine keeps_bind keeps_atEnd fun done => ?_
      split
      · exact keeps_pure _
      · exact keeps_bind (keeps_requiredStep he) fun o => keeps_bind ih fun _ => keeps_pure _

theorem keeps_separatedElements {closing separator element : Parse lexer Outcome}
    (hc : Keeps I closing) (hs : Keeps I separator) (he : Keeps I element) (fuel : Nat) :
    Keeps I (separatedElements closing separator element fuel) := by
  induction fuel with
  | zero => exact keeps_throw _
  | succ fuel ih =>
    refine keeps_bind (keeps_required he) fun o => keeps_bind hs fun sep => ?_
    split
    · exact keeps_bind ih fun _ => keeps_pure _
    · exact keeps_bind hc fun _ => keeps_pure _

omit [Steady I] in
theorem keeps_steps : Keeps I (steps : Parse lexer Nat) :=
  keeps_get_bind fun _ _ => keeps_pure _

theorem keeps_untilEndBody {element : Parse lexer Outcome} (he : Keeps I element) :
    Keeps I (untilEndBody element) :=
  keeps_bind keeps_steps fun fuel => keeps_bind (keeps_elementsUntilEnd he fuel) fun _ =>
    keeps_pure _

theorem keeps_untilMatchBody {terminator element : Parse lexer Outcome}
    (ht : Keeps I terminator) (he : Keeps I element) :
    Keeps I (untilMatchBody terminator element) :=
  keeps_bind keeps_steps fun fuel => keeps_bind (keeps_elementsUntil ht he fuel) fun _ =>
    keeps_pure _

theorem keeps_delimitedBody {opening closing separator element : Parse lexer Outcome}
    (ho : Keeps I opening) (hc : Keeps I closing) (hs : Keeps I separator)
    (he : Keeps I element) :
    Keeps I (delimitedBody opening closing separator element) := by
  refine keeps_bind ho fun opened => ?_
  split
  · exact keeps_pure _
  · refine keeps_bind hc fun closed => ?_
    split
    · exact keeps_pure _
    · refine keeps_bind keeps_steps fun fuel =>
        keeps_bind (keeps_separatedElements hc hs he fuel) fun (items, closed) => ?_
      simp only
      split <;> exact keeps_pure _

/-! ## Operators -/

theorem keeps_operatorAbove? (tiers : List Tier) (floor : Option Nat) :
    Keeps I (operatorAbove? tiers floor : Parse lexer _) := by
  refine keeps_bind keeps_peek fun t => ?_
  split
  · exact keeps_pure _
  · split
    · exact keeps_pure _
    · split <;> exact keeps_pure _

theorem keeps_operandThen {operand : Parse lexer Outcome}
    {more : Position → Value → Parse lexer Outcome} (ho : Keeps I operand)
    (hm : ∀ p v, Keeps I (more p v)) : Keeps I (operandThen operand more) := by
  refine keeps_bind keeps_position fun start => keeps_bind ho fun first => ?_
  split
  · exact hm _ _
  · exact keeps_pure _

theorem keeps_expressionFrom {operand : Parse lexer Outcome} (ho : Keeps I operand)
    (tiers : List Tier) (fuel : Nat) (floor : Option Nat) (start : Position) (left : Value) :
    Keeps I (expressionFrom operand tiers fuel floor start left) := by
  induction fuel generalizing floor start left with
  | zero => exact keeps_throw _
  | succ fuel ih =>
    refine keeps_bind (keeps_operatorAbove? tiers floor) fun operator => ?_
    split
    · exact keeps_pure _
    · refine keeps_get_bind fun before hbefore => keeps_bind keeps_next fun token => ?_
      split
      · exact keeps_pure _
      · refine keeps_bind (keeps_operandThen ho (ih _)) fun right => ?_
        split
        · exact keeps_get_bind fun _ _ => ih _ _ _
        · exact keeps_bind (keeps_returnTo hbefore) fun _ => keeps_pure _

theorem keeps_binaryBody {operand : Parse lexer Outcome} (ho : Keeps I operand)
    (tiers : List Tier) : Keeps I (binaryBody operand tiers) :=
  keeps_operandThen ho fun _ _ => keeps_get_bind fun _ _ => keeps_expressionFrom ho tiers _ _ _ _

/-! ## Scripts -/

omit [Steady I] in
theorem keeps_getD {runs : List (Parse lexer Outcome)} (h : ∀ x ∈ runs, Keeps I x) (i : Nat)
    (o : Outcome) : Keeps I (runs.getD i (pure o)) := by
  rw [List.getD_eq_getElem?_getD]
  cases hx : runs[i]? with
  | some x => exact h x (List.mem_of_getElem? hx)
  | none => exact keeps_pure o

/-- Returning to a checkpoint that was saved stays among the states of the stream. -/
theorem keeps_script (script : Script) (depthLimit : Nat) {runs : List (Parse lexer Outcome)}
    (hruns : ∀ x ∈ runs, Keeps I x) (saved : List Checkpoint)
    (hsaved : ∀ c ∈ saved, ∃ t : Stream lexer, I t ∧ t.checkpoint = c) :
    Keeps I (script.run depthLimit runs saved) := by
  induction script generalizing saved with
  | finish o => exact keeps_pure o
  | abort e => exact keeps_refuse e
  | peek answer ih => exact keeps_bind pullKeeps_peek.answerOf fun a => ih a saved hsaved
  | next answer ih => exact keeps_bind pullKeeps_next.answerOf fun a => ih a saved hsaved
  | position answer ih => exact keeps_bind pullKeeps_position.answerOf fun a => ih a saved hsaved
  | offset answer ih | lastEnd answer ih | depth answer ih | text answer ih
  | unmoved slot answer ih => exact keeps_get_bind fun s _ => ih _ saved hsaved
  | save following ih =>
    refine keeps_get_bind fun s hs => ih _ fun c hc => ?_
    rcases List.mem_cons.1 hc with rfl | hc
    · exact ⟨s, hs, rfl⟩
    · exact hsaved c hc
  | restore slot following ih =>
    simp only [Script.run]
    split
    · next c hslot =>
      obtain ⟨t, ht, rfl⟩ := hsaved c (List.mem_of_getElem? hslot)
      exact keeps_bind (keeps_returnTo ht) fun _ => ih saved hsaved
    · exact ih saved hsaved
  | call part answer ih =>
    exact keeps_bind (keeps_getD hruns part _).outcomeOf fun a => ih a saved hsaved
  | limit answer ih => exact ih _ saved hsaved

/-! ## Segments -/

theorem keeps_tokenBody (accepts : Token → Bool) (outcome : Token → Outcome) (expected : String) :
    Keeps I (tokenBody accepts outcome expected : Parse lexer Outcome) := by
  refine keeps_bind keeps_position fun start => keeps_bind keeps_peek fun found => ?_
  split
  · split
    · exact keeps_bind keeps_next fun _ => keeps_pure _
    · exact keeps_pure _
  · exact keeps_pure _

theorem keeps_possiblyBody (kind expected : String) :
    Keeps I (possiblyBody kind expected : Parse lexer Outcome) := by
  refine keeps_bind keeps_peek fun found => ?_
  split
  · exact keeps_bind keeps_next fun _ => keeps_pure _
  · exact keeps_pure _

section

variable {run : Runner lexer} (hrun : ∀ s, Keeps I (run s))
include hrun

theorem keeps_choiceBody (best : Option Outcome) (alternatives : List Segment) :
    Keeps I (choiceBody run best alternatives) := by
  induction alternatives generalizing best with
  | nil =>
    cases best with
    | none => exact keeps_bind keeps_position fun _ => keeps_pure _
    | some o => exact keeps_pure o
  | cons s rest ih =>
    refine keeps_bind (hrun s) fun o => ?_
    split
    · exact keeps_pure o
    · exact ih _

omit [Steady I] in
theorem keeps_optionalBody (s : Segment) : Keeps I (optionalBody run s) := by
  refine keeps_bind (hrun s) fun o => ?_
  split <;> exact keeps_pure _

omit [Steady I] in
theorem keeps_betweenBody (opening content closing : Segment) :
    Keeps I (betweenBody run opening content closing) := by
  refine keeps_bind (hrun opening) fun opened => ?_
  split
  · exact keeps_pure _
  · refine keeps_bind (hrun content) fun inner => ?_
    split
    · exact keeps_pure _
    · refine keeps_bind (hrun closing) fun closed => ?_
      split <;> exact keeps_pure _

omit [Steady I] in
theorem keeps_gather (policy : Nesting) (d : Draft) (segments : List Segment) :
    Keeps I (gather run policy d segments) := by
  induction segments generalizing d with
  | nil => exact keeps_pure _
  | cons s rest ih =>
    refine keeps_bind (hrun s) fun o => ?_
    split
    · refine keeps_get_bind fun t _ => keeps_bind ?_ fun d => ih d
      cases d.add o policy t.lastEnd with
      | ok d => exact keeps_pure d
      | error e => exact keeps_refuse e
    · exact keeps_pure _

omit [Steady I] in
theorem keeps_ruleBody (r : Rule) : Keeps I (ruleBody run r) := by
  refine keeps_bind (keeps_gather hrun _ _ _) fun d => ?_
  split <;> exact keeps_pure _

/-- What a shape does stays among the states of the stream and at its depth, if the runs inside
do. -/
theorem keeps_body (grammar : Grammar) (shape : Shape) : Keeps I (shape.body grammar run) := by
  cases shape with
  | exact kind expected => exact keeps_tokenBody _ _ _
  | ofKind kind => exact keeps_tokenBody _ _ _
  | leaf kind => exact keeps_tokenBody _ _ _
  | possibly kind expected => exact keeps_possiblyBody _ _
  | nothing => exact keeps_pure _
  | fail message => exact keeps_bind keeps_position fun _ => keeps_pure _
  | reference name =>
    simp only [Shape.body]
    split
    · exact hrun _
    · exact keeps_refuse _
  | optional s => exact keeps_optionalBody hrun s
  | choice alternatives => exact keeps_choiceBody hrun none alternatives
  | delimited opening closing separator element =>
    exact keeps_delimitedBody (hrun _) (hrun _) (hrun _) (hrun _)
  | between opening content closing => exact keeps_betweenBody hrun _ _ _
  | untilMatch terminator element => exact keeps_untilMatchBody (hrun _) (hrun _)
  | untilEnd element => exact keeps_untilEndBody (hrun _)
  | binary operand tiers => exact keeps_binaryBody (hrun _) tiers
  | inline rule => exact keeps_ruleBody hrun rule
  | script request parts =>
    refine keeps_script request _ ?_ [] (by simp)
    rintro _ hx
    obtain ⟨p, -, rfl⟩ := List.mem_map.1 hx
    exact hrun p

end

end

namespace Segment

theorem keeps_runWithin [Closed I] (grammar : Grammar) (levels : Nat) (s : Segment) :
    Keeps I (runWithin grammar levels s : Parse lexer Outcome) := by
  induction levels generalizing s with
  | zero => exact keeps_deeper (keeps_bind keeps_position fun _ => keeps_refuse _)
  | succ levels ih => exact keeps_deeper (keeps_attempt _ (keeps_body ih grammar s.shape))

theorem keeps_run [Closed I] (grammar : Grammar) (s : Segment) :
    Keeps I (s.run grammar : Parse lexer Outcome) :=
  fun stream h => keeps_runWithin grammar _ s stream h

theorem depth_run (grammar : Grammar) (s : Segment) (stream : Stream lexer) :
    (stateOf (s.run grammar stream)).depth = stream.depth :=
  (keeps_run grammar s (I := fun _ => True) stream trivial).2

end Segment

theorem Rule.keeps_run [Closed I] (grammar : Grammar) (r : Rule) :
    Keeps I (r.run grammar : Parse lexer Outcome) := by
  rw [Rule.run_eq]
  exact Segment.keeps_run grammar r.toSegment

/-! ## Parses -/

/-- What a parse makes of the outcome of its root. -/
def concluded (root : String) (o : Outcome) : Parse lexer Value := do
  if o.isMatch then return o.data?.getD .null
  else
    let e ← Parse.complaint o
    Parse.record (.refused root e)
    Parse.refuse e

theorem parse_of_find? {grammar : Grammar} {root : String} {rule : Rule}
    (h : grammar.find? root = some rule) (s : Stream lexer) :
    grammar.parse root s =
      (grammar.runRoot rule >>= concluded root) (s.record (.parsing root)) := by
  unfold Grammar.parse
  rw [h]
  rfl

section

variable [Steady I]

theorem keeps_concluded (root : String) (o : Outcome) :
    Keeps I (concluded root o : Parse lexer Value) := by
  unfold concluded
  split
  · exact keeps_pure _
  · exact keeps_bind (keeps_complaint o) fun e =>
      keeps_bind (keeps_remark rfl) fun _ => keeps_refuse e

theorem keeps_runRoot {grammar : Grammar} {rule : Rule}
    (h : Keeps I (rule.run grammar : Parse lexer Outcome)) :
    Keeps I (grammar.runRoot rule : Parse lexer Outcome) := by
  intro s hs
  obtain ⟨hr, hd⟩ := h s hs
  unfold Grammar.runRoot
  cases h : rule.run grammar s with
  | ok o s' => rw [h] at hr hd; exact ⟨hr, hd⟩
  | error e s' =>
    rw [h] at hr hd
    cases e with
    | error e => exact ⟨Steady.remark hr rfl, hd⟩
    | endless => exact ⟨hr, hd⟩

/-- A parse stays among the states that the runs of all rules stay among. -/
theorem keeps_parse {grammar : Grammar}
    (h : ∀ rule : Rule, Keeps I (rule.run grammar : Parse lexer Outcome)) (root : String) :
    Keeps I (grammar.parse root : Parse lexer Value) := by
  unfold Grammar.parse
  split
  · exact keeps_refuse _
  · exact keeps_bind (keeps_remark rfl) fun _ =>
      keeps_bind (keeps_runRoot (h _)) fun o => keeps_concluded root o

end

end Descent
