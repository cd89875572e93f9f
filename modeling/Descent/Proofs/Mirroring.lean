import Descent.Proofs.Backtracking
import Descent.Proofs.Inside
import Mathlib.Data.List.Forall2

/-!
# Two runs side by side

Two streams over one text can differ in what no run reads from them: in their journals, and in the
depth at which they stand. A relation that leaves no other difference, and that no operation of a
run leads out of, is a `Coupling`. From coupled streams an operation mirrors another one if both
give the same result and end coupled, unless the first ends for one of some named reasons. No
combinator takes such an end back, so what is built from operations that mirror others mirrors what
is built from those.

* `Meets.bind`, `Mirrors.bind`: operations in a row.
* `meets_attempt`: a segment whose body mirrors another one, from streams that only have to show
  the same first token.
* `Shape.Like`: shapes that are made alike, of parts that are related in some way.
* `mirrors_body`: what such shapes do.
* `mirrors_parse`: whole parses.
-/
namespace Descent

open Descent.Stream

variable {lexer : Lexer} {α β : Type}

/-! ## What a stream shows -/

/-- The streams differ in their depth and their journals only. -/
structure Stream.SameView (s t : Stream lexer) : Prop where
  cursor : s.cursor = t.cursor
  buffered : s.buffered = t.buffered
  lastEnd : s.lastEnd = t.lastEnd

namespace Stream.SameView

variable {s t : Stream lexer}

theorem checkpoint_eq (h : SameView s t) : s.checkpoint = t.checkpoint := by
  unfold checkpoint bookmark
  rw [h.buffered, h.cursor, h.lastEnd]

theorem offset_eq (h : SameView s t) : s.offset = t.offset :=
  congrArg Checkpoint.offset h.checkpoint_eq

theorem unread_eq (h : SameView s t) : s.unread = t.unread := by
  unfold unread bookmark
  rw [h.buffered, h.cursor]

theorem look (h : SameView s t) :
    valueOf (peek s) = valueOf (peek t) ∧ SameView (stateOf (peek s)) (stateOf (peek t)) := by
  obtain ⟨cursor, buffered, lastEnd, depth, journal⟩ := s
  obtain ⟨cursor', buffered', lastEnd', depth', journal'⟩ := t
  obtain ⟨hc, hb, hl⟩ := h
  subst hc hb hl
  cases buffered with
  | some b => exact ⟨rfl, rfl, rfl, rfl⟩
  | none =>
    simp only [peek]
    cases lexer.read cursor with
    | error e c => exact ⟨rfl, rfl, rfl, rfl⟩
    | ok l c => cases l <;> exact ⟨rfl, rfl, rfl, rfl⟩

theorem handOut (h : SameView s t) : SameView s.handOut t.handOut := by
  unfold Stream.handOut
  rw [h.buffered]
  split
  · exact ⟨h.cursor, rfl, rfl⟩
  · exact h

theorem take (h : SameView s t) :
    valueOf (next s) = valueOf (next t) ∧ SameView (stateOf (next s)) (stateOf (next t)) := by
  obtain ⟨hv, hl⟩ := h.look
  rw [next_eq, next_eq]
  cases hs : peek s <;> cases ht : peek t <;> rw [hs, ht] at hv hl <;> cases hv
  · exact ⟨rfl, hl.handOut⟩
  · exact ⟨rfl, hl⟩

theorem back {s' t' : Stream lexer} (h : SameView s t) (h' : SameView s' t') :
    SameView (s.returnTo s'.checkpoint) (t.returnTo t'.checkpoint) := by
  rw [h'.checkpoint_eq]
  exact ⟨congrArg (Cursor.goTo · _) h.cursor, rfl, rfl⟩

theorem record (h : SameView s t) (e e' : Event) : SameView (s.record e) (t.record e') :=
  ⟨h.cursor, h.buffered, h.lastEnd⟩

theorem atDepth (h : SameView s t) (d d' : Nat) : SameView (s.atDepth d) (t.atDepth d') :=
  ⟨h.cursor, h.buffered, h.lastEnd⟩

end Stream.SameView

/-- The streams of the relation show the same, and no operation of a run leads out of it. What is
noted of a segment may tell the depth at which it began. -/
class Stream.Coupling (E : Stream lexer → Stream lexer → Prop) : Prop where
  view {s t : Stream lexer} (h : E s t) : SameView s t
  look {s t : Stream lexer} (h : E s t) : E (stateOf (peek s)) (stateOf (peek t))
  take {s t : Stream lexer} (h : E s t) : E (stateOf (next s)) (stateOf (next t))
  back {s t s' t' : Stream lexer} (h : E s t) (h' : E s' t') :
    E (s.returnTo s'.checkpoint) (t.returnTo t'.checkpoint)
  enter {s t : Stream lexer} (h : E s t) (label : String) (p : Position) :
    E (s.record (.entered label s.depth p)) (t.record (.entered label t.depth p))
  remark {s t s' t' : Stream lexer} (h : E s t) (h' : E s' t') {e : Nat → Event}
    (he : ∀ depth, (e depth).isEntry = false) : E (s.record (e s'.depth)) (t.record (e t'.depth))

/-- Nor does going one level deeper, or back. -/
class Stream.DeepCoupling (E : Stream lexer → Stream lexer → Prop) : Prop extends Coupling E where
  nest {s t : Stream lexer} (h : E s t) : E (s.atDepth (s.depth + 1)) (t.atDepth (t.depth + 1))
  leave {s t : Stream lexer} (h : E s t) : E (s.atDepth (s.depth - 1)) (t.atDepth (t.depth - 1))

theorem Stream.Same.view {s t : Stream lexer} (h : Same s t) : SameView s t :=
  ⟨h.cursor, h.buffered, h.lastEnd⟩

theorem Stream.SameView.same {s t : Stream lexer} (h : SameView s t) (hd : s.depth = t.depth) :
    Same s t := ⟨h.cursor, h.buffered, h.lastEnd, hd⟩

instance : DeepCoupling (Same : Stream lexer → Stream lexer → Prop) where
  view h := h.view
  look h := h.view.look.2.same (by rw [(peek_frame _).2, (peek_frame _).2, h.depth])
  take h := h.view.take.2.same (by rw [depth_next, depth_next, h.depth])
  back h h' := (h.view.back h'.view).same h.depth
  enter h _ _ := (h.view.record _ _).same h.depth
  remark h _ _ _ := (h.view.record _ _).same h.depth
  nest h := (h.view.atDepth _ _).same (congrArg (· + 1) h.depth)
  leave h := (h.view.atDepth _ _).same (congrArg (· - 1) h.depth)

/-! ## Mirrored operations -/

variable {E : Stream lexer → Stream lexer → Prop} {P : Stop → Prop}

/-- The results say the same and the streams behind them are coupled, or the first result is an end
for a reason of `P`. -/
inductive Meets (E : Stream lexer → Stream lexer → Prop) (P : Stop → Prop) :
    EStateM.Result Stop (Stream lexer) α → EStateM.Result Stop (Stream lexer) α → Prop
  | ok (a : α) {s t : Stream lexer} (h : E s t) : Meets E P (.ok a s) (.ok a t)
  | error (e : Stop) {s t : Stream lexer} (h : E s t) : Meets E P (.error e s) (.error e t)
  | stopped {e : Stop} {s : Stream lexer} (r : EStateM.Result Stop (Stream lexer) α) (h : P e) :
    Meets E P (.error e s) r

/-- From coupled streams the operations come to results that meet. -/
def Mirrors (E : Stream lexer → Stream lexer → Prop) (P : Stop → Prop) (x y : Parse lexer α) :
    Prop := ∀ s t, E s t → Meets E P (x s) (y t)

theorem Meets.exists_ok {r : EStateM.Result Stop (Stream lexer) α} {a : α} {t : Stream lexer}
    (h : Meets E (fun _ => False) r (.ok a t)) : ∃ s, r = .ok a s ∧ E s t := by
  cases h with
  | ok a h => exact ⟨_, rfl, h⟩
  | stopped _ h => exact h.elim

theorem Meets.exists_error {r : EStateM.Result Stop (Stream lexer) α} {e : Stop} {t : Stream lexer}
    (h : Meets E (fun _ => False) r (.error e t)) : ∃ s, r = .error e s ∧ E s t := by
  cases h with
  | error e h => exact ⟨_, rfl, h⟩
  | stopped _ h => exact h.elim

/-- What comes second may know the states that the first operations ended in. -/
theorem Meets.bind {x y : Parse lexer α} {f g : α → Parse lexer β} {s t : Stream lexer}
    (h : Meets E P (x s) (y t))
    (hf : ∀ a s' t', x s = .ok a s' → y t = .ok a t' → E s' t' → Meets E P (f a s') (g a t')) :
    Meets E P ((x >>= f) s) ((y >>= g) t) := by
  rw [bind_apply, bind_apply]
  generalize x s = r at h hf
  generalize y t = r' at h hf
  cases h with
  | ok a h => exact hf a _ _ rfl rfl h
  | error e h => exact .error e h
  | stopped r h => exact .stopped _ h

theorem Mirrors.bind {x y : Parse lexer α} {f g : α → Parse lexer β} (h : Mirrors E P x y)
    (hf : ∀ a, Mirrors E P (f a) (g a)) : Mirrors E P (x >>= f) (y >>= g) :=
  fun s t hE => (h s t hE).bind fun a s' t' _ _ h' => hf a s' t' h'

theorem mirrors_pure (a : α) : Mirrors E P (pure a : Parse lexer α) (pure a) :=
  fun _ _ h => .ok a h

theorem mirrors_throw (e : Stop) : Mirrors E P (throw e : Parse lexer α) (throw e) :=
  fun _ _ h => .error e h

theorem mirrors_refuse (e : ParseError) : Mirrors E P (Parse.refuse e : Parse lexer α)
    (Parse.refuse e) := mirrors_throw _

theorem mirrors_get_bind {f g : Stream lexer → Parse lexer α}
    (hf : ∀ s t, E s t → Mirrors E P (f s) (g t)) : Mirrors E P (get >>= f) (get >>= g) :=
  fun s t h => hf s t h s t h

/-! ### Reading -/

/-- Reading shows coupled streams the same and leaves them coupled. -/
def PullMirrors (E : Stream lexer → Stream lexer → Prop) (x : Pull lexer α) : Prop :=
  ∀ s t, E s t → valueOf (x s) = valueOf (x t) ∧ E (stateOf (x s)) (stateOf (x t))

theorem Meets.ofPull {x : Pull lexer α} {s t : Stream lexer}
    (h : valueOf (x s) = valueOf (x t) ∧ E (stateOf (x s)) (stateOf (x t))) :
    Meets E P (Parse.ofPull x s) (Parse.ofPull x t) := by
  obtain ⟨hv, hE⟩ := h
  unfold Parse.ofPull
  cases hs : x s <;> cases ht : x t <;> rw [hs, ht] at hv hE <;> cases hv
  · exact .ok _ hE
  · exact .error _ hE

theorem PullMirrors.ofPull {x : Pull lexer α} (h : PullMirrors E x) :
    Mirrors E P (Parse.ofPull x) (Parse.ofPull x) := fun s t hE => .ofPull (h s t hE)

theorem PullMirrors.answerOf {x : Pull lexer α} (h : PullMirrors E x) :
    Mirrors E P (answerOf x) (answerOf x) := fun s t hE => by
  obtain ⟨hv, hE⟩ := h s t hE
  unfold Descent.answerOf
  cases hs : x s <;> cases ht : x t <;> rw [hs, ht] at hv hE <;> cases hv <;> exact .ok _ hE

section

variable [Coupling E]

theorem pullMirrors_peek : PullMirrors E (peek : Pull lexer (Option Token)) := fun _ _ h =>
  ⟨(Coupling.view h).look.1, Coupling.look h⟩

theorem pullMirrors_next : PullMirrors E (next : Pull lexer (Option Token)) := fun _ _ h =>
  ⟨(Coupling.view h).take.1, Coupling.take h⟩

theorem pullMirrors_atEnd : PullMirrors E (atEnd : Pull lexer Bool) := fun s t h => by
  have hv := (Coupling.view h).look.1
  refine ⟨?_, by rw [stateOf_atEnd, stateOf_atEnd]; exact Coupling.look h⟩
  rw [atEnd_eq, atEnd_eq]
  cases hs : peek s <;> cases ht : peek t <;> rw [hs, ht] at hv <;> cases hv <;> rfl

theorem pullMirrors_position : PullMirrors E (position : Pull lexer Position) := fun s t h => by
  obtain ⟨hv, hl⟩ := (Coupling.view h).look
  refine ⟨?_, by rw [stateOf_position, stateOf_position]; exact Coupling.look h⟩
  rw [position_eq, position_eq]
  cases hs : peek s with
  | error e s' => cases ht : peek t <;> rw [hs, ht] at hv <;> cases hv; rfl
  | ok found s' =>
    cases ht : peek t <;> rw [hs, ht] at hv hl <;> cases hv
    cases found with
    | some token => rfl
    | none => exact congrArg (fun c : Cursor => Except.ok c.position) hl.cursor

theorem mirrors_peek : Mirrors E P (Parse.peek : Parse lexer (Option Token)) Parse.peek :=
  pullMirrors_peek.ofPull

theorem mirrors_next : Mirrors E P (Parse.next : Parse lexer (Option Token)) Parse.next :=
  pullMirrors_next.ofPull

theorem mirrors_atEnd : Mirrors E P (Parse.atEnd : Parse lexer Bool) Parse.atEnd :=
  pullMirrors_atEnd.ofPull

theorem mirrors_position : Mirrors E P (Parse.position : Parse lexer Position) Parse.position :=
  pullMirrors_position.ofPull

theorem mirrors_returnTo {s t : Stream lexer} (h : E s t) :
    Mirrors E P (modify (·.returnTo s.checkpoint) : Parse lexer Unit)
      (modify (·.returnTo t.checkpoint)) := fun _ _ h' => .ok () (Coupling.back h' h)

theorem mirrors_remark {e : Event} (he : e.isEntry = false) :
    Mirrors E P (Parse.record e : Parse lexer Unit) (Parse.record e) :=
  fun _ _ h => .ok () (Coupling.remark (e := fun _ => e) h h fun _ => he)

theorem mirrors_complaint (o : Outcome) :
    Mirrors E P (Parse.complaint o : Parse lexer ParseError) (Parse.complaint o) := by
  unfold Parse.complaint
  split
  · exact mirrors_pure _
  · refine mirrors_position.bind fun p => mirrors_peek.bind fun found => ?_
    split <;> exact mirrors_pure _

/-! ### Levels and attempts -/

omit [Coupling E] in
theorem meets_deeper [DeepCoupling E] {x y : Parse lexer α} {s t : Stream lexer}
    (h : Meets E P (x (s.atDepth (s.depth + 1))) (y (t.atDepth (t.depth + 1)))) :
    Meets E P (Parse.deeper x s) (Parse.deeper y t) := by
  rw [deeper_apply, deeper_apply]
  generalize x (s.atDepth (s.depth + 1)) = r at h
  generalize y (t.atDepth (t.depth + 1)) = r' at h
  cases h with
  | ok a h => exact .ok a (DeepCoupling.leave h)
  | error e h => exact .error e (DeepCoupling.leave h)
  | stopped r h => exact .stopped _ h

omit [Coupling E] in
theorem mirrors_deeper [DeepCoupling E] {x y : Parse lexer α} (h : Mirrors E P x y) :
    Mirrors E P (Parse.deeper x) (Parse.deeper y) :=
  fun _ _ hE => meets_deeper (h _ _ (DeepCoupling.nest hE))

theorem mirrors_settled (options : Options) (start : Position) {body body' : Parse lexer Outcome}
    (h : Mirrors E P body body') :
    Mirrors E P (settled options start body) (settled options start body') := by
  intro s t hE
  have hb := h s t hE
  have hbegan : s.offset = t.offset := (Coupling.view hE).offset_eq
  unfold settled
  generalize body s = r at hb
  generalize body' t = r' at hb
  cases hb with
  | error e h => exact .error e (Coupling.back h hE)
  | stopped r h => exact .stopped _ h
  | @ok o behind behind' h =>
    have hcame : behind.offset = behind'.offset := (Coupling.view h).offset_eq
    have hlast : behind.lastEnd = behind'.lastEnd := (Coupling.view h).lastEnd
    simp only [hbegan, hcame, hlast]
    cases o.verdict with
    | matched data => exact .ok _ h
    | failed f =>
      exact .ok _ (Coupling.remark (Coupling.back h hE) hE
        (e := fun depth => .failed (options.label.getD "<segment>") depth
          (o.settleFailure f t.offset behind'.offset).progress f.message) fun _ => rfl)

/-- An attempt looks at its first token before anything else, so this is all that the streams have
to agree in. -/
theorem meets_attempt (options : Options) {body body' : Parse lexer Outcome}
    (h : Mirrors E P body body') {s t : Stream lexer}
    (hE : Meets E P (Parse.position s) (Parse.position t)) :
    Meets E P (attempt options body s) (attempt options body' t) :=
  hE.bind fun start _ _ _ _ h' => mirrors_settled options start h _ _ (Coupling.enter h' _ start)

theorem mirrors_attempt (options : Options) {body body' : Parse lexer Outcome}
    (h : Mirrors E P body body') : Mirrors E P (attempt options body) (attempt options body') :=
  fun s t hE => meets_attempt options h (mirrors_position s t hE)

/-! ## Repetitions -/

theorem mirrors_required {x y : Parse lexer Outcome} (h : Mirrors E P x y) :
    Mirrors E P (required x) (required y) := by
  refine h.bind fun o => ?_
  split
  · exact mirrors_pure o
  · exact (mirrors_complaint o).bind mirrors_refuse

theorem mirrors_requiredStep {x y : Parse lexer Outcome} (h : Mirrors E P x y) :
    Mirrors E P (requiredStep x) (requiredStep y) := by
  refine mirrors_position.bind fun start => (mirrors_required h).bind fun o => ?_
  split
  · exact mirrors_refuse _
  · exact mirrors_pure o

theorem mirrors_elementsUntilEnd {x y : Parse lexer Outcome} (h : Mirrors E P x y) (fuel : Nat) :
    Mirrors E P (elementsUntilEnd x fuel) (elementsUntilEnd y fuel) := by
  induction fuel with
  | zero => exact mirrors_throw _
  | succ fuel ih =>
    refine mirrors_atEnd.bind fun done => ?_
    split
    · exact mirrors_pure _
    · exact (mirrors_requiredStep h).bind fun o => ih.bind fun _ => mirrors_pure _

theorem mirrors_elementsUntil {t u x y : Parse lexer Outcome} (ht : Mirrors E P t u)
    (h : Mirrors E P x y) (fuel : Nat) :
    Mirrors E P (elementsUntil t x fuel) (elementsUntil u y fuel) := by
  induction fuel with
  | zero => exact mirrors_throw _
  | succ fuel ih =>
    refine ht.bind fun o => ?_
    split
    · exact mirrors_pure _
    · refine mirrors_atEnd.bind fun done => ?_
      split
      · exact mirrors_pure _
      · exact (mirrors_requiredStep h).bind fun o => ih.bind fun _ => mirrors_pure _

theorem mirrors_separatedElements {c d t u x y : Parse lexer Outcome} (hc : Mirrors E P c d)
    (ht : Mirrors E P t u) (h : Mirrors E P x y) (fuel : Nat) :
    Mirrors E P (separatedElements c t x fuel) (separatedElements d u y fuel) := by
  induction fuel with
  | zero => exact mirrors_throw _
  | succ fuel ih =>
    refine (mirrors_required h).bind fun o => ht.bind fun separator => ?_
    split
    · exact ih.bind fun _ => mirrors_pure _
    · exact hc.bind fun _ => mirrors_pure _

theorem mirrors_steps : Mirrors E P (steps : Parse lexer Nat) steps :=
  mirrors_get_bind fun s t h => by
    rw [(Coupling.view h).unread_eq]
    exact mirrors_pure _

theorem mirrors_untilEndBody {x y : Parse lexer Outcome} (h : Mirrors E P x y) :
    Mirrors E P (untilEndBody x) (untilEndBody y) :=
  mirrors_steps.bind fun fuel => (mirrors_elementsUntilEnd h fuel).bind fun _ => mirrors_pure _

theorem mirrors_untilMatchBody {t u x y : Parse lexer Outcome} (ht : Mirrors E P t u)
    (h : Mirrors E P x y) : Mirrors E P (untilMatchBody t x) (untilMatchBody u y) :=
  mirrors_steps.bind fun fuel => (mirrors_elementsUntil ht h fuel).bind fun _ => mirrors_pure _

theorem mirrors_delimitedBody {o p c d t u x y : Parse lexer Outcome} (ho : Mirrors E P o p)
    (hc : Mirrors E P c d) (ht : Mirrors E P t u) (h : Mirrors E P x y) :
    Mirrors E P (delimitedBody o c t x) (delimitedBody p d u y) := by
  refine ho.bind fun opened => ?_
  split
  · exact mirrors_pure _
  · refine hc.bind fun closed => ?_
    split
    · exact mirrors_pure _
    · refine mirrors_steps.bind fun fuel =>
        (mirrors_separatedElements hc ht h fuel).bind fun (items, closed) => ?_
      simp only
      split <;> exact mirrors_pure _

/-! ## Operators -/

theorem mirrors_operatorAbove? (tiers : List Tier) (floor : Option Nat) :
    Mirrors E P (operatorAbove? tiers floor : Parse lexer _) (operatorAbove? tiers floor) := by
  refine mirrors_peek.bind fun found => ?_
  split
  · exact mirrors_pure _
  · split
    · exact mirrors_pure _
    · split <;> exact mirrors_pure _

theorem mirrors_operandThen {x y : Parse lexer Outcome}
    {more more' : Position → Value → Parse lexer Outcome} (h : Mirrors E P x y)
    (hm : ∀ p v, Mirrors E P (more p v) (more' p v)) :
    Mirrors E P (operandThen x more) (operandThen y more') := by
  refine mirrors_position.bind fun start => h.bind fun first => ?_
  split
  · exact hm _ _
  · exact mirrors_pure _

theorem mirrors_expressionFrom {x y : Parse lexer Outcome} (h : Mirrors E P x y)
    (tiers : List Tier) (fuel : Nat) (floor : Option Nat) (start : Position) (left : Value) :
    Mirrors E P (expressionFrom x tiers fuel floor start left)
      (expressionFrom y tiers fuel floor start left) := by
  induction fuel generalizing floor start left with
  | zero => exact mirrors_throw _
  | succ fuel ih =>
    refine (mirrors_operatorAbove? tiers floor).bind fun operator => ?_
    split
    · exact mirrors_pure _
    · refine mirrors_get_bind fun before before' hbefore => mirrors_next.bind fun token => ?_
      split
      · exact mirrors_pure _
      · refine (mirrors_operandThen h (ih _)).bind fun right => ?_
        split
        · refine mirrors_get_bind fun s t hE => ?_
          rw [(Coupling.view hE).lastEnd]
          exact ih _ _ _
        · exact (mirrors_returnTo hbefore).bind fun _ => mirrors_pure _

theorem mirrors_binaryBody {x y : Parse lexer Outcome} (h : Mirrors E P x y)
    (tiers : List Tier) : Mirrors E P (binaryBody x tiers) (binaryBody y tiers) :=
  mirrors_operandThen h fun _ _ => mirrors_get_bind fun s t hE => by
    rw [(Coupling.view hE).unread_eq]
    exact mirrors_expressionFrom h tiers _ _ _ _

/-! ## Scripts -/

/-- The script passes on the errors of `fatal` that a segment ends with, and asks for the depth
limit only under the condition `asks`. -/
def Script.Forthright (fatal : ParseError → Prop) (asks : Prop) : Script → Prop
  | finish _ | abort _ => True
  | peek answer | next answer => ∀ a, (answer a).Forthright fatal asks
  | position answer => ∀ a, (answer a).Forthright fatal asks
  | offset answer | depth answer => ∀ n, (answer n).Forthright fatal asks
  | lastEnd answer => ∀ p, (answer p).Forthright fatal asks
  | text answer => ∀ t, (answer t).Forthright fatal asks
  | save following | restore _ following => following.Forthright fatal asks
  | unmoved _ answer => ∀ b, (answer b).Forthright fatal asks
  | call _ answer =>
    (∀ e, fatal e → answer (.error e) = abort e) ∧ ∀ a, (answer a).Forthright fatal asks
  | limit answer => asks ∧ ∀ n, (answer n).Forthright fatal asks

/-- If no error is fatal and the limit may be asked for, that says nothing. -/
theorem Script.forthright_of_none {fatal : ParseError → Prop} {asks : Prop}
    (hnone : ∀ e, ¬ fatal e) (hasks : asks) (script : Script) : script.Forthright fatal asks := by
  induction script with
  | finish | abort => trivial
  | peek answer ih | next answer ih | position answer ih | offset answer ih | depth answer ih
  | lastEnd answer ih | text answer ih | unmoved slot answer ih => exact ih
  | save following ih | restore slot following ih => exact ih
  | call part answer ih => exact ⟨fun e he => (hnone e he).elim, ih⟩
  | limit answer ih => exact ⟨hasks, ih⟩

theorem Script.Forthright.mono {fatal : ParseError → Prop} {asks asks' : Prop} {script : Script}
    (h : script.Forthright fatal asks) (hasks : asks → asks') : script.Forthright fatal asks' := by
  induction script with
  | finish | abort => trivial
  | peek answer ih | next answer ih | position answer ih | offset answer ih | depth answer ih
  | lastEnd answer ih | text answer ih | unmoved slot answer ih => exact fun a => ih a (h a)
  | save following ih | restore slot following ih => exact ih h
  | call part answer ih => exact ⟨h.1, fun a => ih a (h.2 a)⟩
  | limit answer ih => exact ⟨hasks h.1, fun a => ih a (h.2 a)⟩

omit [Coupling E] in
theorem mirrors_getD {runs runs' : List (Parse lexer Outcome)}
    (h : List.Forall₂ (Mirrors E P) runs runs') (i : Nat) (o : Outcome) :
    Mirrors E P (runs.getD i (pure o)) (runs'.getD i (pure o)) := by
  induction h generalizing i with
  | nil => exact mirrors_pure o
  | cons h _ ih =>
    cases i with
    | zero => exact h
    | succ i => exact ih i

omit [Coupling E] in
/-- What goes on behind the answer of a run mirrors, unless it is kept from an error of `P`. -/
theorem mirrors_outcomeOf_bind {x y : Parse lexer Outcome} (h : Mirrors E P x y)
    {f g : Except ParseError Outcome → Parse lexer α}
    (hfatal : ∀ e, P (.error e) → f (.error e) = Parse.refuse e)
    (hf : ∀ a, Mirrors E P (f a) (g a)) :
    Mirrors E P (outcomeOf x >>= f) (outcomeOf y >>= g) := by
  intro s t hE
  have hr := h s t hE
  rw [bind_apply, bind_apply]
  unfold outcomeOf
  generalize x s = r at hr
  generalize y t = r' at hr
  cases hr with
  | ok o h => exact hf (.ok o) _ _ h
  | error e h =>
    cases e with
    | error e => exact hf (.error e) _ _ h
    | endless => exact .error _ h
  | @stopped e s' r' h =>
    cases e with
    | error e =>
      simp only [hfatal e h]
      exact .stopped _ h
    | endless => exact .stopped _ h

/-- A script can ask for the depth, so the streams have to stand at the same one. -/
theorem mirrors_script (hdepth : ∀ s t, E s t → s.depth = t.depth) {depthLimit depthLimit' : Nat}
    {runs runs' : List (Parse lexer Outcome)} (hruns : List.Forall₂ (Mirrors E P) runs runs')
    {script : Script}
    (hscript : script.Forthright (fun e => P (.error e)) (depthLimit = depthLimit'))
    (saved : List Checkpoint)
    (hsaved : ∀ c ∈ saved, ∃ s t, E s t ∧ s.checkpoint = c ∧ t.checkpoint = c) :
    Mirrors E P (script.run depthLimit runs saved) (script.run depthLimit' runs' saved) := by
  induction script generalizing saved with
  | finish o => exact mirrors_pure o
  | abort e => exact mirrors_refuse e
  | peek answer ih =>
    exact pullMirrors_peek.answerOf.bind fun a => ih a (hscript a) saved hsaved
  | next answer ih =>
    exact pullMirrors_next.answerOf.bind fun a => ih a (hscript a) saved hsaved
  | position answer ih =>
    exact pullMirrors_position.answerOf.bind fun a => ih a (hscript a) saved hsaved
  | offset answer ih =>
    refine mirrors_get_bind fun s t h => ?_
    rw [(Coupling.view h).offset_eq]
    exact ih _ (hscript _) saved hsaved
  | lastEnd answer ih =>
    refine mirrors_get_bind fun s t h => ?_
    rw [(Coupling.view h).lastEnd]
    exact ih _ (hscript _) saved hsaved
  | depth answer ih =>
    refine mirrors_get_bind fun s t h => ?_
    rw [hdepth s t h]
    exact ih _ (hscript _) saved hsaved
  | text answer ih =>
    refine mirrors_get_bind fun s t h => ?_
    rw [Stream.text, Stream.text, (Coupling.view h).cursor]
    exact ih _ (hscript _) saved hsaved
  | save following ih =>
    refine mirrors_get_bind fun s t h => ?_
    rw [(Coupling.view h).checkpoint_eq]
    refine ih hscript _ fun c hc => ?_
    rcases List.mem_cons.1 hc with rfl | hc
    · exact ⟨s, t, h, (Coupling.view h).checkpoint_eq, rfl⟩
    · exact hsaved c hc
  | restore slot following ih =>
    simp only [Script.run]
    split
    · next c hslot =>
      obtain ⟨s, t, h, hs, ht⟩ := hsaved c (List.mem_of_getElem? hslot)
      have hback : Mirrors E P (modify (·.returnTo c) : Parse lexer Unit)
          (modify (·.returnTo c)) := by
        have := mirrors_returnTo (P := P) h
        rwa [hs, ht] at this
      exact hback.bind fun _ => ih hscript saved hsaved
    · exact ih hscript saved hsaved
  | unmoved slot answer ih =>
    refine mirrors_get_bind fun s t h => ?_
    rw [(Coupling.view h).checkpoint_eq]
    exact ih _ (hscript _) saved hsaved
  | call part answer ih =>
    refine mirrors_outcomeOf_bind (mirrors_getD hruns part _) (fun e he => ?_)
      fun a => ih a (hscript.2 a) saved hsaved
    rw [hscript.1 e he]
    rfl
  | limit answer ih =>
    obtain ⟨rfl, hanswer⟩ := hscript
    exact ih _ (hanswer _) saved hsaved

/-! ## Segments -/

theorem mirrors_tokenBody (accepts : Token → Bool) (outcome : Token → Outcome)
    (expected : String) :
    Mirrors E P (tokenBody accepts outcome expected : Parse lexer Outcome)
      (tokenBody accepts outcome expected) := by
  refine mirrors_position.bind fun start => mirrors_peek.bind fun found => ?_
  split
  · split
    · exact mirrors_next.bind fun _ => mirrors_pure _
    · exact mirrors_pure _
  · exact mirrors_pure _

theorem mirrors_possiblyBody (kind expected : String) :
    Mirrors E P (possiblyBody kind expected : Parse lexer Outcome)
      (possiblyBody kind expected) := by
  refine mirrors_peek.bind fun found => ?_
  split
  · exact mirrors_next.bind fun _ => mirrors_pure _
  · exact mirrors_pure _

end

/-- The rules differ in their segments only, and these are related one by one. -/
inductive Rule.Like (R : Segment → Segment → Prop) : Rule → Rule → Prop
  | of (name : String) (kind : Option String) {ps qs : List Segment} (nesting : Nesting)
    (convert : Value → Value) (h : List.Forall₂ R ps qs) :
    Like R ⟨name, kind, ps, nesting, convert⟩ ⟨name, kind, qs, nesting, convert⟩

theorem Rule.Like.name_eq {R : Segment → Segment → Prop} {r r' : Rule} (h : r.Like R r') :
    r.name = r'.name := by
  cases h; rfl

theorem Rule.like_refl {R : Segment → Segment → Prop} {r : Rule}
    (h : ∀ p ∈ r.segments, R p p) : r.Like R r := by
  obtain ⟨name, kind, segments, nesting, convert⟩ := r
  exact .of _ _ _ _ (List.forall₂_same.2 h)

/-- The shapes are made alike and their parts are related one by one. If they are scripts, then the
same one of `S`. -/
inductive Shape.Like (S : Script → Prop) (R : Segment → Segment → Prop) : Shape → Shape → Prop
  | exact (kind text : String) : Like S R (.exact kind text) (.exact kind text)
  | ofKind (kind : String) : Like S R (.ofKind kind) (.ofKind kind)
  | leaf (kind : String) : Like S R (.leaf kind) (.leaf kind)
  | possibly (kind text : String) : Like S R (.possibly kind text) (.possibly kind text)
  | nothing : Like S R .nothing .nothing
  | fail (message : String) : Like S R (.fail message) (.fail message)
  | reference (rule : String) : Like S R (.reference rule) (.reference rule)
  | optional {p q : Segment} (h : R p q) : Like S R (.optional p) (.optional q)
  | choice {ps qs : List Segment} (h : List.Forall₂ R ps qs) : Like S R (.choice ps) (.choice qs)
  | delimited {o o' c c' s s' e e' : Segment} (ho : R o o') (hc : R c c') (hs : R s s')
    (he : R e e') : Like S R (.delimited o c s e) (.delimited o' c' s' e')
  | between {o o' i i' c c' : Segment} (ho : R o o') (hi : R i i') (hc : R c c') :
    Like S R (.between o i c) (.between o' i' c')
  | untilMatch {t t' e e' : Segment} (ht : R t t') (he : R e e') :
    Like S R (.untilMatch t e) (.untilMatch t' e')
  | untilEnd {e e' : Segment} (he : R e e') : Like S R (.untilEnd e) (.untilEnd e')
  | binary {p q : Segment} (h : R p q) (tiers : List Tier) :
    Like S R (.binary p tiers) (.binary q tiers)
  | inline {r r' : Rule} (h : r.Like R r') : Like S R (.inline r) (.inline r')
  | script {request : Script} {ps qs : List Segment} (h : S request)
    (hparts : List.Forall₂ R ps qs) : Like S R (.script request ps) (.script request qs)

/-- A shape is made like itself. -/
theorem Shape.like_refl {S : Script → Prop} {R : Segment → Segment → Prop} {shape : Shape}
    (hS : shape.ScriptIn S) (hR : ∀ p ∈ shape.parts, R p p) : shape.Like S R shape := by
  cases shape with
  | choice alternatives => exact .choice (List.forall₂_same.2 hR)
  | inline rule => exact .inline (Rule.like_refl hR)
  | script request parts => exact .script hS (List.forall₂_same.2 hR)
  | _ => constructor <;> exact hR _ (by simp [Shape.parts])

section

variable {R : Segment → Segment → Prop} {run run' : Runner lexer}
  (hrun : ∀ p q, R p q → Mirrors E P (run p) (run' q))
include hrun

theorem mirrors_choiceBody [Coupling E] (best : Option Outcome) {ps qs : List Segment}
    (h : List.Forall₂ R ps qs) :
    Mirrors E P (choiceBody run best ps) (choiceBody run' best qs) := by
  induction h generalizing best with
  | nil =>
    cases best with
    | none => exact mirrors_position.bind fun _ => mirrors_pure _
    | some o => exact mirrors_pure o
  | cons h _ ih =>
    refine (hrun _ _ h).bind fun o => ?_
    split
    · exact mirrors_pure o
    · exact ih _

theorem mirrors_optionalBody {p q : Segment} (h : R p q) :
    Mirrors E P (optionalBody run p) (optionalBody run' q) := by
  refine (hrun _ _ h).bind fun o => ?_
  split <;> exact mirrors_pure _

theorem mirrors_betweenBody {o o' i i' c c' : Segment} (ho : R o o') (hi : R i i') (hc : R c c') :
    Mirrors E P (betweenBody run o i c) (betweenBody run' o' i' c') := by
  refine (hrun _ _ ho).bind fun opened => ?_
  split
  · exact mirrors_pure _
  · refine (hrun _ _ hi).bind fun inner => ?_
    split
    · exact mirrors_pure _
    · refine (hrun _ _ hc).bind fun closed => ?_
      split <;> exact mirrors_pure _

theorem mirrors_gather [Coupling E] (policy : Nesting) (d : Draft) {ps qs : List Segment}
    (h : List.Forall₂ R ps qs) :
    Mirrors E P (gather run policy d ps) (gather run' policy d qs) := by
  induction h generalizing d with
  | nil => exact mirrors_pure _
  | cons h _ ih =>
    refine (hrun _ _ h).bind fun o => ?_
    split
    · refine mirrors_get_bind fun s t hE => ?_
      rw [(Coupling.view hE).lastEnd]
      refine Mirrors.bind ?_ ih
      cases d.add o policy t.lastEnd with
      | ok d => exact mirrors_pure d
      | error e => exact mirrors_refuse e
    · exact mirrors_pure _

theorem mirrors_ruleBody [Coupling E] {r r' : Rule} (h : r.Like R r') :
    Mirrors E P (ruleBody run r) (ruleBody run' r') := by
  cases h with
  | of name kind nesting convert h =>
    refine (mirrors_gather hrun _ _ h).bind fun d => ?_
    split <;> exact mirrors_pure _

/-- What a shape does mirrors what a shape that is made alike does, if the runs of the parts mirror
each other, and if scripts do with such runs at hand. -/
theorem mirrors_body [Coupling E] {S : Script → Prop} {g g' : Grammar}
    (hscript : ∀ (request : Script) {runs runs' : List (Parse lexer Outcome)}, S request →
      List.Forall₂ (Mirrors E P) runs runs' →
      Mirrors E P (request.run g.maxDepth runs []) (request.run g'.maxDepth runs' []))
    (hfind : ∀ name, Option.Rel (fun r r' => R r.toSegment r'.toSegment) (g.find? name)
      (g'.find? name)) {shape shape' : Shape} (h : shape.Like S R shape') :
    Mirrors E P (shape.body g run) (shape'.body g' run') := by
  cases h with
  | exact kind expected => exact mirrors_tokenBody _ _ _
  | ofKind kind => exact mirrors_tokenBody _ _ _
  | leaf kind => exact mirrors_tokenBody _ _ _
  | possibly kind expected => exact mirrors_possiblyBody _ _
  | nothing => exact mirrors_pure _
  | fail message => exact mirrors_position.bind fun _ => mirrors_pure _
  | reference name =>
    have hrule := hfind name
    simp only [Shape.body]
    generalize g.find? name = found at hrule ⊢
    generalize g'.find? name = found' at hrule ⊢
    cases hrule with
    | none => exact mirrors_refuse _
    | some h => exact hrun _ _ h
  | optional h => exact mirrors_optionalBody hrun h
  | choice h => exact mirrors_choiceBody hrun none h
  | delimited ho hc hs he =>
    exact mirrors_delimitedBody (hrun _ _ ho) (hrun _ _ hc) (hrun _ _ hs) (hrun _ _ he)
  | between ho hi hc => exact mirrors_betweenBody hrun ho hi hc
  | untilMatch ht he => exact mirrors_untilMatchBody (hrun _ _ ht) (hrun _ _ he)
  | untilEnd he => exact mirrors_untilEndBody (hrun _ _ he)
  | binary h tiers => exact mirrors_binaryBody (hrun _ _ h) tiers
  | inline h => exact mirrors_ruleBody hrun h
  | script h hparts =>
    refine hscript _ h ?_
    rw [List.forall₂_map_left_iff, List.forall₂_map_right_iff]
    exact hparts.imp hrun

end

theorem rel_find? {g g' : Grammar} {R : Rule → Rule → Prop} {name : String}
    (hfind : g.find? name = g'.find? name)
    (hrules : ∀ rule, g.find? name = some rule → R rule rule) :
    Option.Rel R (g.find? name) (g'.find? name) := by
  rw [← hfind]
  cases hf : g.find? name with
  | none => exact .none
  | some rule => exact .some (hrules rule hf)

/-- The same shape, under the same rules, with two ways to run the segments of `Q`. -/
theorem mirrors_body_self [Coupling E] (hdepth : ∀ s t, E s t → s.depth = t.depth)
    {Q : Segment → Prop} {run run' : Runner lexer} (hrun : ∀ p, Q p → Mirrors E P (run p) (run' p))
    {g g' : Grammar} (hfind : ∀ name, g.find? name = g'.find? name)
    (hrules : ∀ name rule, g.find? name = some rule → Q rule.toSegment) {shape : Shape}
    (hscript : shape.ScriptIn
      (Script.Forthright (fun e => P (.error e)) (g.maxDepth = g'.maxDepth)))
    (hparts : ∀ p ∈ shape.parts, Q p) : Mirrors E P (shape.body g run) (shape.body g' run') := by
  refine mirrors_body (R := fun p q => p = q ∧ Q p) (fun p q hpq => hpq.1 ▸ hrun p hpq.2)
    (fun request runs runs' hrequest hruns => ?_)
    (fun name => rel_find? (hfind name) fun rule hrule => ⟨rfl, hrules name rule hrule⟩)
    (Shape.like_refl hscript fun p hp => ⟨rfl, hparts p hp⟩)
  exact mirrors_script hdepth hruns hrequest [] (by simp)

/-! ## Parses -/

section

variable [Coupling E]

theorem mirrors_runRoot {g g' : Grammar} {r r' : Rule} (hname : r.name = r'.name)
    (h : Mirrors E P (r.run g) (r'.run g')) : Mirrors E P (g.runRoot r) (g'.runRoot r') := by
  intro s t hE
  have hr := h s t hE
  unfold Grammar.runRoot
  rw [hname]
  generalize r.run g s = x at hr
  generalize r'.run g' t = y at hr
  cases hr with
  | ok o h => exact .ok o h
  | error e h =>
    cases e with
    | error e =>
      exact .error _ (Coupling.remark (e := fun _ => .refused r'.name e) h h fun _ => rfl)
    | endless => exact .error _ h
  | @stopped e s' y h =>
    cases e with
    | error e => exact .stopped _ h
    | endless => exact .stopped _ h

/-- A parse mirrors the parse under another grammar if the runs of the rules of one name do. -/
theorem mirrors_parse {g g' : Grammar} {Q : Rule → Rule → Prop}
    (hfind : ∀ name, Option.Rel Q (g.find? name) (g'.find? name))
    (hrun : ∀ r r', Q r r' → r.name = r'.name ∧ Mirrors E P (r.run g) (r'.run g'))
    (root : String) : Mirrors E P (g.parse root : Parse lexer Value) (g'.parse root) := by
  have hrule := hfind root
  unfold Grammar.parse
  generalize g.find? root = found at hrule ⊢
  generalize g'.find? root = found' at hrule ⊢
  cases hrule with
  | none => exact mirrors_refuse _
  | some h =>
    obtain ⟨hname, hm⟩ := hrun _ _ h
    refine (mirrors_remark rfl).bind fun _ => (mirrors_runRoot hname hm).bind fun o => ?_
    split
    · exact mirrors_pure _
    · exact (mirrors_complaint o).bind fun e => (mirrors_remark rfl).bind fun _ =>
        mirrors_refuse e

end

end Descent
