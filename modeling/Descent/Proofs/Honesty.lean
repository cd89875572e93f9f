import Descent.Proofs.Inside
import Descent.Proofs.Plan

/-!
# Plans that pass failures on

A body without a match either failed by itself or passes on the failure of a run that it made.
`Plan.Honest` says of a plan that it makes nothing up: at the end there is a match, or a failure of
its own, or a failure that it may still pass on. These are the failures of the runs since the last
match: all of them began in one place, and the stream still stands there. Behind an operator there
is only passing on, since the operator will be put back.

* `honest_elementsUntilEnd`, `honest_elementsUntil`, `honest_separatedElements`, `honest_choice`,
  `honest_gather`, `honest_expressionFrom`: the parts of plans.
* `honest_plan`: the plans of all shapes.
-/
namespace Descent

variable {lexer : Lexer}

/-- A shape that fails by itself: it looks for a token, or it always fails. -/
def Shape.Primitive : Shape → Prop
  | .exact .. | .ofKind _ | .leaf _ | .fail _ | .choice [] => True
  | _ => False

/-- A shape without parts that is more than a match. -/
def Shape.Single : Shape → Prop
  | .possibly .. => True
  | shape => shape.Primitive

namespace Plan

/-- No failure. -/
def noFailures : Outcome → Prop := fun _ => False

/-- The failures that may be passed on behind a run: if it matched there are none, and else there is
one more. -/
def joined (failures : Outcome → Prop) (o : Outcome) : Outcome → Prop :=
  fun o' => o.isMatch = false ∧ (failures o' ∨ o' = o)

/-- The plan runs only segments that are `known` and only scripts that are `allowed`, and ends with
a match, with a failure of its own, if `own` admits that, or with one of these `failures`. -/
def Honest (known : Segment → Prop) (allowed : Script → Prop) :
    Plan lexer → Bool → (Outcome → Prop) → Prop
  | done o, _, failures => o.isMatch = true ∨ failures o
  | single shape, own, _ => own = true ∧ shape.Single
  | script request parts, own, _ => own = true ∧ allowed request ∧ ∀ p ∈ parts, known p
  | stop _, _, _ | complain _, _, _ => True
  | peek answer, own, failures => ∀ a, (answer a).Honest known allowed own failures
  | position answer, own, failures => ∀ a, (answer a).Honest known allowed own failures
  | observe answer, own, failures => ∀ a, (answer a).Honest known allowed own failures
  | call s answer, own, failures =>
    known s ∧ ∀ o, (answer o).Honest known allowed own (joined failures o)
  | taking missing right answer, own, _ =>
    missing.Honest known allowed own noFailures ∧
      (∀ token, (right token).Honest known allowed false noFailures) ∧
      ∀ token o, o.isMatch = true → (answer token o).Honest known allowed own noFailures

variable {known : Segment → Prop} {allowed : Script → Prop} {own : Bool}
  {failures : Outcome → Prop}

theorem Honest.mono {x : Plan lexer} {more : Outcome → Prop}
    (h : x.Honest known allowed own failures) (hmore : ∀ o, failures o → more o) :
    x.Honest known allowed own more := by
  induction x generalizing failures more with
  | done o => exact h.imp_right (hmore o)
  | peek answer ih | position answer ih | observe answer ih => exact fun a => ih a (h a) hmore
  | call s answer ih =>
    exact ⟨h.1, fun o => ih o (h.2 o) fun o' ho => ⟨ho.1, ho.2.imp_left (hmore o')⟩⟩
  | single | script | stop | complain | taking => exact h

/-- Where nothing is passed on, nothing has to be there to pass on. -/
theorem Honest.of_noFailures {x : Plan lexer} (h : x.Honest known allowed own noFailures) :
    x.Honest known allowed own failures := h.mono fun _ ho => ho.elim

theorem honest_match {o : Outcome} (h : o.isMatch = true) :
    (done o : Plan lexer).Honest known allowed own failures := Or.inl h

/-- The failure of the last run is passed on. -/
theorem honest_failed {o : Outcome} (h : ¬ o.isMatch = true) :
    (done o : Plan lexer).Honest known allowed own (joined failures o) :=
  Or.inr ⟨Bool.eq_false_iff.2 h, Or.inr rfl⟩

/-! ## Repetitions -/

theorem honest_required {element : Segment} {answer : Outcome → Plan lexer} (he : known element)
    (h : ∀ o, (answer o).Honest known allowed own noFailures) :
    (required element answer).Honest known allowed own failures := by
  refine ⟨he, fun o => ?_⟩
  simp only
  split
  · exact (h o).of_noFailures
  · trivial

theorem honest_requiredStep {element : Segment} {answer : Outcome → Plan lexer}
    (he : known element) (h : ∀ o, (answer o).Honest known allowed own noFailures) :
    (requiredStep element answer).Honest known allowed own failures := by
  refine fun start => honest_required he fun o => ?_
  split
  · trivial
  · exact h o

theorem honest_elementsUntilEnd {element : Segment} (he : known element) (fuel : Nat)
    {answer : List Value → Plan lexer}
    (h : ∀ items, (answer items).Honest known allowed own noFailures) :
    (elementsUntilEnd element fuel answer).Honest known allowed own failures := by
  induction fuel generalizing answer failures with
  | zero => trivial
  | succ fuel ih =>
    intro found
    simp only
    split
    · exact (h []).of_noFailures
    · exact honest_requiredStep he fun o => ih fun items => h _

theorem honest_elementsUntil {terminator element : Segment} (ht : known terminator)
    (he : known element) (fuel : Nat) {answer : List Value → Plan lexer}
    (h : ∀ items, (answer items).Honest known allowed own noFailures) :
    (elementsUntil terminator element fuel answer).Honest known allowed own failures := by
  induction fuel generalizing answer failures with
  | zero => trivial
  | succ fuel ih =>
    refine ⟨ht, fun ended => ?_⟩
    simp only
    split
    · exact (h []).of_noFailures
    · intro found
      simp only
      split
      · exact (h []).of_noFailures
      · exact honest_requiredStep he fun o => ih fun items => h _

/-- What comes behind may pass on the failure of the closing delimiter. -/
theorem honest_separatedElements {closing separator element : Segment} (hc : known closing)
    (hs : known separator) (he : known element) (fuel : Nat)
    {answer : List Value × Outcome → Plan lexer}
    (h : ∀ items closed,
      (answer (items, closed)).Honest known allowed own (joined noFailures closed)) :
    (separatedElements closing separator element fuel answer).Honest known allowed own
      failures := by
  induction fuel generalizing answer failures with
  | zero => trivial
  | succ fuel ih =>
    refine honest_required he fun o => ⟨hs, fun found => ?_⟩
    simp only
    split
    · exact ih fun items closed => h _ closed
    · exact ⟨hc, fun closed => (h _ closed).mono fun o ho => ⟨ho.1, ho.2.imp_left False.elim⟩⟩

theorem honest_delimited {opening closing separator element : Segment} (ho : known opening)
    (hc : known closing) (hs : known separator) (he : known element) :
    (delimited opening closing separator element : Plan lexer).Honest known allowed own
      failures := by
  refine ⟨ho, fun opened => ?_⟩
  simp only
  split
  · next h => exact honest_failed (by simpa using h)
  · refine ⟨hc, fun closed => ?_⟩
    simp only
    split
    · exact honest_match rfl
    · refine fun s => honest_separatedElements hc hs he _ fun items closed => ?_
      simp only
      split
      · exact honest_match rfl
      · next h => exact honest_failed h

/-! ## Operators -/

theorem honest_operatorAbove? (tiers : List Tier) (floor : Option Nat)
    {answer : Option (Nat × Associativity) → Plan lexer}
    (h : ∀ found, (answer found).Honest known allowed own failures) :
    (operatorAbove? tiers floor answer).Honest known allowed own failures := by
  intro found
  cases found with
  | none => exact h _
  | some token =>
    simp only
    split
    · exact h _
    · split <;> exact h _

theorem honest_operandThen {operand : Segment} {more : Position → Value → Plan lexer}
    (ho : known operand) (h : ∀ start v, (more start v).Honest known allowed own noFailures) :
    (operandThen operand more).Honest known allowed own failures := by
  refine fun start => ⟨ho, fun first => ?_⟩
  simp only
  split
  · exact (h _ _).of_noFailures
  · next hfirst => exact honest_failed hfirst

theorem honest_expressionFrom {operand : Segment} (ho : known operand) (tiers : List Tier)
    (fuel : Nat) (floor : Option Nat) (start : Position) (left : Value) :
    (expressionFrom operand tiers fuel floor start left : Plan lexer).Honest known allowed own
      failures := by
  induction fuel generalizing floor start left own failures with
  | zero => trivial
  | succ fuel ih =>
    refine honest_operatorAbove? tiers floor fun operator => ?_
    cases operator with
    | none => exact honest_match rfl
    | some operator =>
      exact ⟨honest_match rfl, fun _ => honest_operandThen ho fun _ _ => ih _ _ _,
        fun _ _ _ _ => ih _ _ _⟩

theorem honest_binary {operand : Segment} (ho : known operand) (tiers : List Tier) :
    (binary operand tiers : Plan lexer).Honest known allowed own failures :=
  honest_operandThen ho fun _ _ _ => honest_expressionFrom ho tiers _ _ _ _

/-! ## Choices and sequences -/

/-- The best failure so far is one of those that may be passed on. -/
theorem honest_choice {alternatives : List Segment} (h : ∀ s ∈ alternatives, known s)
    {best : Option Outcome} (hbest : ∀ o, best = some o → failures o) :
    (choice best alternatives : Plan lexer).Honest known allowed true failures := by
  induction alternatives generalizing best failures with
  | nil =>
    cases best with
    | none => exact ⟨rfl, trivial⟩
    | some o => exact Or.inr (hbest o rfl)
  | cons s rest ih =>
    rw [List.forall_mem_cons] at h
    refine ⟨h.1, fun o => ?_⟩
    simp only
    split
    · next ho => exact honest_match ho
    · next ho =>
      refine ih h.2 fun o' ho' => ⟨Bool.eq_false_iff.2 ho, ?_⟩
      rw [Option.some_inj] at ho'
      subst ho'
      cases best with
      | none => exact Or.inr rfl
      | some b =>
        simp only [further]
        split
        · exact Or.inr rfl
        · exact Or.inl (hbest b rfl)

theorem honest_between {opening content closing : Segment} (ho : known opening)
    (hi : known content) (hc : known closing) :
    (between opening content closing : Plan lexer).Honest known allowed own failures := by
  refine ⟨ho, fun opened => ?_⟩
  simp only
  split
  · next h => exact honest_failed (by simpa using h)
  · refine ⟨hi, fun inner => ?_⟩
    simp only
    split
    · next h => exact honest_failed (by simpa using h)
    · refine ⟨hc, fun closed => ?_⟩
      simp only
      split
      · next h => exact honest_failed (by simpa using h)
      · exact honest_match (Outcome.isMatch_ofData? _)

theorem honest_gather (policy : Nesting) {finish : Draft → Outcome}
    (hfinish : ∀ d, (finish d).isMatch = true) {segments : List Segment}
    (h : ∀ s ∈ segments, known s) (d : Draft) :
    (gather policy finish d segments : Plan lexer).Honest known allowed own failures := by
  induction segments generalizing d failures with
  | nil => exact honest_match (hfinish d)
  | cons s rest ih =>
    rw [List.forall_mem_cons] at h
    refine ⟨h.1, fun o => ?_⟩
    simp only
    split
    · intro stream
      simp only
      split
      · exact ih h.2 _
      · trivial
    · next ho => exact honest_failed ho

end Plan

theorem Outcome.isMatch_mapData (convert : Value → Value) (o : Outcome) :
    (o.mapData convert).isMatch = o.isMatch := by
  unfold mapData
  split
  · next h => simp only [isMatch, h]
  · rfl

variable {known : Segment → Prop} {allowed : Script → Prop}

/-- The plans of all shapes are honest about their parts and about the rules of the grammar. -/
theorem honest_plan {g : Grammar} {shape : Shape} (hshape : shape.ScriptIn allowed)
    (hparts : ∀ p ∈ shape.parts, known p) (hrules : ∀ rule ∈ g.rules, known rule.toSegment) :
    (shape.plan g : Plan lexer).Honest known allowed true Plan.noFailures := by
  cases shape with
  | exact | ofKind | leaf | possibly | fail => exact ⟨rfl, trivial⟩
  | nothing => exact Plan.honest_match rfl
  | reference name =>
    simp only [Shape.plan]
    split
    · next rule hfind =>
      refine ⟨hrules rule (Grammar.mem_of_find? hfind).1, fun o => ?_⟩
      cases ho : o.isMatch with
      | true => exact Plan.honest_match ho
      | false => exact Plan.honest_failed (by simp [ho])
    · trivial
  | optional s =>
    refine ⟨hparts s (List.mem_singleton.2 rfl), fun o => ?_⟩
    simp only
    split
    · next ho => exact Plan.honest_match ho
    · exact Plan.honest_match rfl
  | choice => exact Plan.honest_choice hparts (by simp)
  | delimited =>
    simp only [Shape.parts, List.forall_mem_cons] at hparts
    obtain ⟨ho, hc, hs, he, -⟩ := hparts
    exact Plan.honest_delimited ho hc hs he
  | between =>
    simp only [Shape.parts, List.forall_mem_cons] at hparts
    obtain ⟨ho, hi, hc, -⟩ := hparts
    exact Plan.honest_between ho hi hc
  | untilMatch =>
    simp only [Shape.parts, List.forall_mem_cons] at hparts
    obtain ⟨ht, he, -⟩ := hparts
    exact fun s => Plan.honest_elementsUntil ht he _ fun _ => Plan.honest_match rfl
  | untilEnd element =>
    exact fun s => Plan.honest_elementsUntilEnd (hparts element (List.mem_singleton.2 rfl)) _
      fun _ => Plan.honest_match rfl
  | binary operand tiers =>
    exact Plan.honest_binary (hparts operand (List.mem_singleton.2 rfl)) tiers
  | inline rule =>
    refine Plan.honest_gather _ (fun d => ?_) hparts _
    rw [Outcome.isMatch_mapData, Outcome.isMatch_ofData?]
  | script request parts => exact ⟨rfl, hshape, hparts⟩

end Descent
