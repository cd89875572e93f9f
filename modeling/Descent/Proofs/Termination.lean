import Descent.Proofs.Ending

/-!
# Every run ends

Three things could go on for ever, and each has its own measure. A chain of rules and references
uses up levels. Repetitions and rows of operators use up the text, if the separators of lists do not
match without reading anything. The lexer's search for a token that is not skipped uses up the text
too.

* `ends_body`: what a shape does, if the runs inside end.
* `ends_runWithin`: every run of a segment.
* `ends_parse`: every parse.
* `Lexer.readWithin_eq`: the lexer's search is not cut short.
-/
namespace Descent

open Descent.Stream

variable {lexer : Lexer} {text : String} {depth : Nat} {α β : Type}

/-! ## Scripts -/

section

variable {I : Stream lexer → Prop}

theorem ends_answerOf {x : Pull lexer α} (h : PullKeeps I x) : Ends I (answerOf x) fun _ => I := by
  intro s hs
  have hkept := (h s hs).1
  unfold answerOf
  cases hx : x s <;> rw [hx] at hkept <;> exact Or.inl ⟨_, _, rfl, hkept⟩

/-- A run that ends with an error has an answer, too. -/
theorem ends_outcomeOf {x : Parse lexer Outcome} (hkeeps : Keeps I x)
    (hends : Ends I x fun _ => I) : Ends I (outcomeOf x) fun _ => I := by
  intro s hs
  have hkept := (hkeeps s hs).1
  unfold outcomeOf
  rcases hends s hs with ⟨o, s', hx, hs'⟩ | ⟨e, s', hx⟩ <;> rw [hx]
  · exact Or.inl ⟨_, _, rfl, hs'⟩
  · rw [hx] at hkept
    exact Or.inl ⟨_, _, rfl, hkept⟩

theorem ends_getD {runs : List (Parse lexer Outcome)} (h : ∀ x ∈ runs, Ends I x fun _ => I)
    (i : Nat) (o : Outcome) : Ends I (runs.getD i (pure o)) fun _ => I := by
  rw [List.getD_eq_getElem?_getD]
  cases hx : runs[i]? with
  | some x => exact h x (List.mem_of_getElem? hx)
  | none => exact ends_pure fun _ hs => hs

variable [Steady I]

/-- A script is a finite tree of requests, each of which ends if the runs of the segments do. -/
theorem ends_script (script : Script) (depthLimit : Nat) {runs : List (Parse lexer Outcome)}
    (hkeeps : ∀ x ∈ runs, Keeps I x) (hends : ∀ x ∈ runs, Ends I x fun _ => I)
    (saved : List Checkpoint)
    (hsaved : ∀ c ∈ saved, ∃ t : Stream lexer, I t ∧ t.checkpoint = c) :
    Ends I (script.run depthLimit runs saved) fun _ => I := by
  induction script generalizing saved with
  | finish o => exact ends_pure fun _ hs => hs
  | abort e => exact ends_refuse e _
  | peek answer ih => exact (ends_answerOf pullKeeps_peek).bind fun a => ih a saved hsaved
  | next answer ih => exact (ends_answerOf pullKeeps_next).bind fun a => ih a saved hsaved
  | position answer ih => exact (ends_answerOf pullKeeps_position).bind fun a => ih a saved hsaved
  | offset answer ih | lastEnd answer ih | depth answer ih | text answer ih
  | unmoved slot answer ih => exact ends_get_bind fun s _ => ih _ saved hsaved
  | save following ih =>
    refine ends_get_bind fun s hs => ih _ fun c hc => ?_
    rcases List.mem_cons.1 hc with rfl | hc
    · exact ⟨s, hs, rfl⟩
    · exact hsaved c hc
  | restore slot following ih =>
    simp only [Script.run]
    cases hslot : saved[slot]? with
    | some c =>
      obtain ⟨t, ht, rfl⟩ := hsaved c (List.mem_of_getElem? hslot)
      exact fun s hs => ih saved hsaved (s.returnTo t.checkpoint) (Steady.back hs ht)
    | none => exact ih saved hsaved
  | call part answer ih =>
    exact (ends_outcomeOf (keeps_getD hkeeps part _) (ends_getD hends part _)).bind fun a =>
      ih a saved hsaved
  | limit answer ih => exact ih depthLimit saved hsaved

end

theorem onward_script (script : Script) (depthLimit : Nat) {run : Runner lexer}
    {parts : List Segment} (hkeeps : ∀ least s, Keeps (From text depth least) (run s))
    (h : ∀ p ∈ parts, Paced text depth (run p)) :
    Onward text depth (script.run depthLimit (parts.map run) []) := fun least =>
  ends_script script depthLimit (List.forall_mem_map.2 fun p _ => hkeeps least p)
    (List.forall_mem_map.2 fun p hp => (h p hp).onward least) [] (by simp)

/-! ## Segments -/

/-- A look shows what the next look shows. -/
theorem ends_peek_again {I : Stream lexer → Prop} [Steady I] :
    Ends I Parse.peek fun found s => I s ∧ peek s = .ok found s := by
  intro s hs
  rcases ends_peek s hs with ⟨found, s', hp, hs'⟩ | he
  · refine Or.inl ⟨found, s', hp, hs', ?_⟩
    unfold Parse.peek Parse.ofPull at hp
    cases hr : peek s with
    | ok a s₁ => rw [hr] at hp; cases hp; exact peek_again hr
    | error e s₁ => rw [hr] at hp; cases hp
  · exact Or.inr he

/-- A token that was looked at is handed out, and the stream moves. -/
theorem ends_next_looked {least : Nat} {t : Token} :
    Ends (fun s : Stream lexer => From text depth least s ∧ peek s = .ok (some t) s) Parse.next
      fun _ => From text depth (least + 1) := by
  rintro s ⟨hs, hp⟩
  have hn : next s = .ok (some t) s.handOut := by rw [next_eq, hp]
  have hkeeps := (pullKeeps_next s hs).1
  have := hs.reachable.offset_lt_take hn
  have := hs.le
  rw [hn] at hkeeps
  refine Or.inl ⟨some t, s.handOut, by rw [Parse.next, Parse.ofPull, hn], hkeeps.reachable,
    hkeeps.depth_eq, ?_⟩
  omega

/-- A match of a single token moves the stream. -/
theorem ends_tokenBody (accepts : Token → Bool) (outcome : Token → Outcome) (expected : String)
    (least : Nat) :
    Ends (From text depth least) (tokenBody accepts outcome expected : Parse lexer Outcome)
      fun o => From text depth (if o.isMatch then least + 1 else least) := by
  refine ends_position.bind fun start => ends_peek_again.bind fun found => ?_
  cases found with
  | none => exact ends_pure fun _ hs => hs.1
  | some token =>
    simp only
    split
    · refine ends_next_looked.bind fun _ => ends_pure fun _ hs => hs.mono ?_
      split <;> omega
    · exact ends_pure fun _ hs => hs.1

theorem onward_tokenBody (accepts : Token → Bool) (outcome : Token → Outcome) (expected : String) :
    Onward text depth (tokenBody accepts outcome expected : Parse lexer Outcome) := fun least =>
  (ends_tokenBody accepts outcome expected least).mono fun _ _ hs => hs.mono (by split <;> omega)

theorem onward_possiblyBody (kind expected : String) :
    Onward text depth (possiblyBody kind expected : Parse lexer Outcome) := by
  refine fun least => ends_peek.bind fun found => ?_
  split
  · exact ends_next.bind fun _ => ends_pure fun _ hs => hs
  · exact ends_pure fun _ hs => hs

theorem onward_choiceBody {run : Runner lexer} {alternatives : List Segment}
    (hrun : ∀ s ∈ alternatives, Paced text depth (run s)) (best : Option Outcome) :
    Onward text depth (choiceBody run best alternatives) := by
  intro least
  induction alternatives generalizing best with
  | nil =>
    cases best with
    | none => exact ends_position.bind fun _ => ends_pure fun _ hs => hs
    | some o => exact ends_pure fun _ hs => hs
  | cons s rest ih =>
    refine ((hrun s List.mem_cons_self).onward least).bind fun o => ?_
    split
    · exact ends_pure fun _ hs => hs
    · exact ih (fun s hs => hrun s (List.mem_cons_of_mem _ hs)) _

theorem onward_optionalBody {run : Runner lexer} {s : Segment} (h : Paced text depth (run s)) :
    Onward text depth (optionalBody run s) := by
  refine fun least => (h.onward least).bind fun o => ?_
  split <;> exact ends_pure fun _ hs => hs

theorem onward_betweenBody {run : Runner lexer} {opening content closing : Segment}
    (ho : Paced text depth (run opening)) (hm : Paced text depth (run content))
    (hc : Paced text depth (run closing)) :
    Onward text depth (betweenBody run opening content closing) := by
  refine fun least => (ho.onward least).bind fun opened => ?_
  split
  · exact ends_pure fun _ hs => hs
  · refine (hm.onward least).bind fun inner => ?_
    split
    · exact ends_pure fun _ hs => hs
    · refine (hc.onward least).bind fun closed => ?_
      split <;> exact ends_pure fun _ hs => hs

theorem onward_gather {run : Runner lexer} {segments : List Segment}
    (hrun : ∀ s ∈ segments, Paced text depth (run s)) (policy : Nesting) (d : Draft) :
    Onward text depth (gather run policy d segments) := by
  intro least
  induction segments generalizing d with
  | nil => exact ends_pure fun _ hs => hs
  | cons s rest ih =>
    refine ((hrun s List.mem_cons_self).onward least).bind fun o => ?_
    split
    · refine ends_get_bind fun t _ => ?_
      cases d.add o policy t.lastEnd with
      | ok d => exact ih (fun s hs => hrun s (List.mem_cons_of_mem _ hs)) d
      | error e => exact fun s _ => Or.inr ⟨e, s, rfl⟩
    · exact ends_pure fun _ hs => hs

theorem onward_ruleBody {run : Runner lexer} {r : Rule}
    (hrun : ∀ s ∈ r.segments, Paced text depth (run s)) :
    Onward text depth (ruleBody run r) := by
  refine fun least => (onward_gather hrun _ _ least).bind fun d => ?_
  split <;> exact ends_pure fun _ hs => hs

/-! ## Separators -/

mutual

/-- The separators of the lists in it, and in what a script has at hand. -/
def Shape.separators : Shape → List Segment
  | .exact .. | .ofKind _ | .leaf _ | .possibly .. | .nothing | .fail _ | .reference _ => []
  | .optional s => s.separators
  | .choice alternatives => Segment.separatorsOf alternatives
  | .delimited opening closing separator element =>
    separator :: (opening.separators ++ closing.separators ++ separator.separators ++
      element.separators)
  | .between opening content closing =>
    opening.separators ++ content.separators ++ closing.separators
  | .untilMatch terminator element => terminator.separators ++ element.separators
  | .untilEnd element => element.separators
  | .binary operand _ => operand.separators
  | .inline rule => rule.separators
  | .script _ parts => Segment.separatorsOf parts

def Segment.separators : Segment → List Segment
  | ⟨shape, _⟩ => shape.separators

def Segment.separatorsOf : List Segment → List Segment
  | [] => []
  | s :: rest => s.separators ++ Segment.separatorsOf rest

def Rule.separators : Rule → List Segment
  | ⟨_, _, segments, _, _⟩ => Segment.separatorsOf segments

end

/-- The separators of all lists of a grammar. -/
def Grammar.separators (grammar : Grammar) : List Segment := grammar.rules.flatMap Rule.separators

theorem Segment.separatorsOf_eq (segments : List Segment) :
    Segment.separatorsOf segments = segments.flatMap Segment.separators := by
  induction segments with
  | nil => rfl
  | cons s rest ih => rw [Segment.separatorsOf, ih, List.flatMap_cons]

theorem Segment.separators_eq (s : Segment) : s.separators = s.shape.separators := by
  cases s; rfl

theorem Rule.separators_eq (r : Rule) : r.separators = r.segments.flatMap Segment.separators := by
  obtain ⟨_, _, segments, _, _⟩ := r
  exact Segment.separatorsOf_eq segments

section

variable {run : Runner lexer} {p : Segment → Prop} {grammar : Grammar}
  (hgrammar : ∀ s ∈ grammar.separators, p s)
  (hkeeps : ∀ least s, Keeps (From text depth least) (run s))
  (hrun : ∀ s : Segment, (∀ t ∈ s.separators, p t) → Paced text depth (run s))
  (hconsuming : ∀ s, p s → Consuming text depth (run s))
include hgrammar hkeeps hrun hconsuming

/-- What a shape does ends, if the runs inside do and the separators read something. -/
theorem ends_body {shape : Shape} (h : ∀ t ∈ shape.separators, p t) :
    Onward text depth (shape.body grammar run) := by
  cases shape with
  | exact kind expected => exact onward_tokenBody _ _ _
  | ofKind kind => exact onward_tokenBody _ _ _
  | leaf kind => exact onward_tokenBody _ _ _
  | possibly kind expected => exact onward_possiblyBody _ _
  | nothing => exact fun _ => ends_pure fun _ hs => hs
  | fail message => exact fun _ => ends_position.bind fun _ => ends_pure fun _ hs => hs
  | reference name =>
    simp only [Shape.body]
    split
    · next rule hfind =>
      refine (hrun _ fun t ht => hgrammar t ?_).onward
      exact List.mem_flatMap.2 ⟨rule, (Grammar.mem_of_find? hfind).1, ht⟩
    · exact fun _ => ends_refuse _ _
  | optional s => exact onward_optionalBody (hrun s h)
  | choice alternatives =>
    refine onward_choiceBody (fun s hs => hrun s fun t ht => h t ?_) none
    rw [Shape.separators, Segment.separatorsOf_eq]
    exact List.mem_flatMap.2 ⟨s, hs, ht⟩
  | delimited opening closing separator element =>
    simp only [Shape.separators, List.mem_cons, List.mem_append] at h
    exact ends_delimitedBody (hrun _ fun t ht => h t (by simp [ht])).onward
      (hrun _ fun t ht => h t (by simp [ht])).onward (hrun _ fun t ht => h t (by simp [ht]))
      (hconsuming _ (h _ (Or.inl rfl))) (hrun _ fun t ht => h t (by simp [ht]))
  | between opening content closing =>
    simp only [Shape.separators, List.mem_append] at h
    exact onward_betweenBody (hrun _ fun t ht => h t (by simp [ht]))
      (hrun _ fun t ht => h t (by simp [ht])) (hrun _ fun t ht => h t (by simp [ht]))
  | untilMatch terminator element =>
    simp only [Shape.separators, List.mem_append] at h
    exact ends_untilMatchBody (hrun _ fun t ht => h t (by simp [ht])).onward
      (hrun _ fun t ht => h t (by simp [ht]))
  | untilEnd element => exact ends_untilEndBody (hrun _ h)
  | binary operand tiers => exact ends_binaryBody (hrun _ h).onward tiers
  | inline rule =>
    refine onward_ruleBody fun s hs => hrun s fun t ht => h t ?_
    rw [Shape.separators, Rule.separators_eq]
    exact List.mem_flatMap.2 ⟨s, hs, ht⟩
  | script request parts =>
    refine onward_script request _ hkeeps fun s hs => hrun s fun t ht => h t ?_
    rw [Shape.separators, Segment.separatorsOf_eq]
    exact List.mem_flatMap.2 ⟨s, hs, ht⟩

end

/-- Wherever a stream over the text stands, a match of the segment has read something. -/
def Segment.Consumes (grammar : Grammar) (lexer : Lexer) (text : String) (s : Segment) : Prop :=
  ∀ (stream stream' : Stream lexer) (o : Outcome), stream.Reachable text →
    s.run grammar stream = .ok o stream' → o.isMatch = true → o.progress ≠ 0

theorem consuming_settled (options : Options) (start : Position) {body : Parse lexer Outcome}
    (h : ∀ least, Ends (From text depth least) body fun o =>
      From text depth (if o.isMatch then least + 1 else least)) :
    Consuming text depth (settled options start body) := by
  intro s o s' hs hrun hm
  rcases h s.offset s hs.here with ⟨o₁, s₁, hb, hs₁⟩ | ⟨e, s₁, hb⟩
  · cases hm₁ : o₁.isMatch with
    | true =>
      rw [settled_of_match hb hm₁] at hrun
      cases hrun
      rw [if_pos hm₁] at hs₁
      have := hs₁.le
      show s'.offset - s.offset ≠ 0
      omega
    | false =>
      obtain ⟨f, e, -, hr⟩ :
          ∃ f e, _ ∧ settled options start body s = .ok _ _ := settled_of_failure hb hm₁
      rw [hr] at hrun
      cases hrun
      cases hm
  · unfold settled at hrun
    rw [hb] at hrun
    cases hrun

theorem consuming_attempt (options : Options) {body : Parse lexer Outcome}
    (h : ∀ least, Ends (From text depth least) body fun o =>
      From text depth (if o.isMatch then least + 1 else least)) :
    Consuming text depth (attempt options body) := by
  intro s o s' hs hrun hm
  rw [attempt_eq, bind_apply] at hrun
  rcases ends_position s hs with ⟨start, s₁, hp, hs₁⟩ | ⟨e, s₁, hp⟩
  · rw [hp] at hrun
    exact consuming_settled options start h (s₁.record _) o s' (Steady.enter hs₁ _ start) hrun hm
  · rw [hp] at hrun
    cases hrun

theorem consuming_deeper {x : Parse lexer Outcome} (h : Consuming text (depth + 1) x) :
    Consuming text depth (Parse.deeper x) := by
  intro s o s' hs hrun hm
  rw [deeper_apply, hs.depth_eq] at hrun
  cases hx : x (s.atDepth (depth + 1)) with
  | ok o₁ s₁ =>
    rw [hx] at hrun
    cases hrun
    exact h _ o s₁ ⟨.nest hs.reachable _, rfl, hs.le⟩ hx hm
  | error e s₁ =>
    rw [hx] at hrun
    cases hrun

/-- Does the shape match a single token? -/
def Shape.readsToken : Shape → Bool
  | .exact .. | .ofKind _ | .leaf _ => true
  | _ => false

/-- A match of a single token has read it, whatever the grammar. -/
theorem Segment.consumes_of_readsToken {s : Segment} (h : s.shape.readsToken = true)
    (grammar : Grammar) (lexer : Lexer) (text : String) : s.Consumes grammar lexer text := by
  intro stream stream' o hstream hrun hm
  have hfrom : From text stream.depth 0 stream := ⟨hstream, rfl, Nat.zero_le _⟩
  unfold Segment.run at hrun
  generalize grammar.maxDepth - stream.depth = levels at hrun
  have hconsuming :
      Consuming text stream.depth (s.runWithin grammar levels : Parse lexer Outcome) := by
    cases levels with
    | zero =>
      refine consuming_deeper fun s₁ o₁ s₂ hs₁ hx _ => ?_
      unfold tooDeep at hx
      rw [bind_apply] at hx
      cases hp : Parse.position s₁ <;> rw [hp] at hx <;> cases hx
    | succ levels =>
      refine consuming_deeper (consuming_attempt _ fun least => ?_)
      cases hs : s.shape <;> rw [hs] at h
      case exact kind text => exact ends_tokenBody _ _ _ least
      case ofKind kind => exact ends_tokenBody _ _ _ least
      case leaf kind => exact ends_tokenBody _ _ _ least
      all_goals cases h
  exact hconsuming stream o stream' hfrom hrun hm

/-- Every run of a segment ends, at every depth of nesting. -/
theorem ends_runWithin {grammar : Grammar}
    (hgrammar : ∀ s ∈ grammar.separators, s.Consumes grammar lexer text) {levels depth : Nat}
    (hlevels : grammar.maxDepth - depth = levels) {s : Segment}
    (h : ∀ t ∈ s.separators, t.Consumes grammar lexer text) :
    Paced text depth (s.runWithin grammar levels : Parse lexer Outcome) := by
  induction levels generalizing depth s with
  | zero =>
    exact ends_deeper fun _ => ends_position.bind fun _ => ends_refuse _ _
  | succ levels ih =>
    have hlevels' : grammar.maxDepth - (depth + 1) = levels := by omega
    rw [Segment.separators_eq] at h
    refine ends_deeper (ends_attempt _ (ends_body hgrammar (fun least s => ?_)
      (fun s hs => ih hlevels' hs) ?_ h))
    · exact (Segment.keeps_runWithin grammar levels s).from
    intro separator hp stream o stream' hfrom hrun hm
    refine hp stream stream' o hfrom.reachable ?_ hm
    rw [Segment.run, hfrom.depth_eq, hlevels']
    exact hrun

/-! ## Parses -/

theorem ends_concluded {I : Stream lexer → Prop} [Steady I] (root : String) (o : Outcome) :
    Ends I (concluded root o) fun _ => I := by
  unfold concluded
  split
  · exact ends_pure fun _ hs => hs
  · refine (ends_complaint o).bind fun e s _ => Or.inr ⟨e, _, rfl⟩

/-- A parse of a text ends. -/
theorem ends_parse {grammar : Grammar}
    (hgrammar : ∀ s ∈ grammar.separators, s.Consumes grammar lexer text) (root : String) :
    (∃ v s, grammar.parseText lexer root text = .ok v s) ∨
      ∃ e s, grammar.parseText lexer root text = .error (.error e) s := by
  unfold Grammar.parseText
  cases hfind : grammar.find? root with
  | none =>
    unfold Grammar.parse
    rw [hfind]
    exact Or.inr ⟨_, _, rfl⟩
  | some rule =>
    have hrule : ∀ s ∈ rule.toSegment.separators, s.Consumes grammar lexer text := fun s hs =>
      hgrammar s (List.mem_flatMap.2 ⟨rule, (Grammar.mem_of_find? hfind).1, hs⟩)
    have hstart : From text 0 0 ((Stream.ofString text : Stream lexer).record (.parsing root)) :=
      ⟨.note .start _, rfl, Nat.zero_le _⟩
    rw [parse_of_find? hfind, bind_apply]
    unfold Grammar.runRoot
    rw [Rule.run_eq, Segment.run, hstart.depth_eq]
    rcases ends_runWithin hgrammar rfl hrule 0 _ hstart with ⟨o, s, hrun, hs⟩ | ⟨e, s, hrun⟩
    · rw [hrun]
      rcases ends_concluded root o s hs with ⟨v, s', hv, -⟩ | he
      · exact Or.inl ⟨v, s', hv⟩
      · exact Or.inr he
    · rw [hrun]
      exact Or.inr ⟨e, _, rfl⟩

/-! ## The lexer -/

theorem Lexer.readWithin_of_atEnd (lexer : Lexer) {c : Cursor} (h : c.atEnd = true) (fuel : Nat) :
    lexer.readWithin fuel c = .ok .finished c := by
  cases fuel with
  | zero => rfl
  | succ fuel => simp only [readWithin, bind_apply, get_apply, h, if_true, pure_apply]

/-- Every token that is passed over takes a character, so the search for the next one is not cut
short by the number of characters left. -/
theorem Lexer.readWithin_eq (lexer : Lexer) {c : Cursor} {fuel fuel' : Nat}
    (h : c.rest.length ≤ fuel) (h' : c.rest.length ≤ fuel') :
    lexer.readWithin fuel c = lexer.readWithin fuel' c := by
  induction fuel generalizing c fuel' with
  | zero =>
    have hend : c.atEnd = true := by
      rw [Cursor.atEnd, List.isEmpty_iff]
      exact List.length_eq_zero_iff.1 (Nat.le_zero.1 h)
    rw [lexer.readWithin_of_atEnd hend, lexer.readWithin_of_atEnd hend]
  | succ fuel ih =>
    cases he : c.atEnd with
    | true => rw [lexer.readWithin_of_atEnd he, lexer.readWithin_of_atEnd he]
    | false =>
      cases fuel' with
      | zero =>
        have hrest : c.rest = [] := List.length_eq_zero_iff.1 (Nat.le_zero.1 h')
        rw [Cursor.atEnd, hrest] at he
        cases he
      | succ fuel' =>
        have hm := moved_readWith lexer.forms c
        simp only [readWithin, bind_apply, get_apply, he, Bool.false_eq_true, if_false]
        cases hw : readWith lexer.forms c with
        | error e d => rfl
        | ok found d =>
          cases found with
          | none => rfl
          | some t =>
            rw [hw] at hm
            have hlen := Cursor.Reaches.length_le hm
            simp only
            split
            · exact ih (by omega) (by omega)
            · rfl

end Descent
