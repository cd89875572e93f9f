import Descent.Proofs.Laid
import Descent.Proofs.Walks

/-!
# What runs lay out

If the matches of the segments inside lie between the places where they began and the ones that they
have come to, then so do those of the combinators: of choices, repetitions and expressions. The
items of a list are read one behind the other, the operands of an operator before it and behind it.

* `walks_tokenBody`: a match of a token has passed one place.
* `walks_elementsUntilEnd`, `walks_elementsUntil`, `walks_separatedElements`: the items of lists.
* `walks_expressionFrom`: the operands of operators.
-/
namespace Descent

open Descent.Stream

/-! ## Outcomes -/

/-- The data of the outcome lies between the two places, and comes without a mode. -/
structure Outcome.Laid (S : Nat → Nat → Span → Prop) (i j : Nat) (o : Outcome) : Prop where
  data : ∀ v, o.data? = some v → v.Laid S i j
  nesting : o.nesting = .inherit

namespace Outcome

variable {S : Nat → Nat → Span → Prop} {i j : Nat}

theorem Laid.mono {i' j' : Nat} {o : Outcome} (h : o.Laid S i j) (hi : i' ≤ i) (hj : j ≤ j') :
    o.Laid S i' j' := ⟨fun v hv => (h.data v hv).mono hi hj, h.nesting⟩

theorem laid_success : Outcome.success.Laid S i j := ⟨nofun, rfl⟩

theorem laid_withData {v : Value} (h : v.Laid S i j) : (Outcome.withData v).Laid S i j :=
  ⟨fun _ hw => Option.some.inj hw ▸ h, rfl⟩

theorem laid_ofData? {data : Option Value} (h : ∀ v, data = some v → v.Laid S i j) :
    (Outcome.ofData? data).Laid S i j := by
  cases data with
  | none => exact laid_success
  | some v => exact laid_withData (h v rfl)

end Outcome

variable {lexer : Lexer} {text : String} {k : Nat}

/-- Wherever it begins, what the operation matches lies between there and where it has come to. -/
def Lays (text : String) (x : Parse lexer Outcome) : Prop :=
  ∀ k, Walks text k x fun j o => o.isMatch = true → o.Laid (lexer.Covers text) k j

/-! ## Single tokens -/

/-- A match of a token has passed it. -/
theorem walks_tokenBody {accepts : Token → Bool} {outcome : Token → Outcome} (expected : String) :
    Walks text k (tokenBody accepts outcome expected : Parse lexer Outcome) fun j o =>
      o.isMatch = true → ∃ t, j = k + 1 ∧ lexer.FoundAt text k t ∧ o = outcome t := by
  refine walks_position.bind fun _ start _ ⟨hj, _⟩ => ?_
  subst hj
  refine walks_peek.bind fun _ found _ ⟨hj, hfound⟩ => ?_
  subst hj
  cases found with
  | none => exact walks_pure nofun
  | some token =>
    simp only
    split
    · refine walks_next.bind fun j taken _ ⟨hnext, hpast⟩ => walks_pure fun _ => ?_
      obtain rfl : some token = taken := Except.ok.inj (hfound.symm.trans hnext)
      exact ⟨token, hpast rfl, hfound, rfl⟩
    · exact walks_pure nofun

theorem walks_possiblyBody (kind expected : String) :
    Walks text k (possiblyBody kind expected : Parse lexer Outcome) fun _ o => o = .success := by
  refine walks_peek.bind fun _ found _ _ => ?_
  split
  · exact walks_next.bind fun _ _ _ _ => walks_pure rfl
  · exact walks_pure rfl

/-! ## Choices and repetitions -/

section

variable {run : Runner lexer}

theorem lays_choiceBody {alternatives : List Segment}
    (h : ∀ s ∈ alternatives, Lays text (run s)) {best : Option Outcome}
    (hbest : ∀ o, best = some o → o.isMatch = false) :
    Lays text (choiceBody run best alternatives) := by
  intro k
  induction alternatives generalizing best k with
  | nil =>
    cases best with
    | none => exact walks_position.bind fun _ _ _ _ => walks_pure nofun
    | some o =>
      refine walks_pure fun hm => ?_
      rw [hbest o rfl] at hm
      cases hm
  | cons s rest ih =>
    rw [List.forall_mem_cons] at h
    refine (h.1 k).bind fun j o hkj ho => ?_
    split
    · exact walks_pure ho
    · next hm =>
      have hfailed : o.isMatch = false := by simpa using hm
      refine (ih h.2 (fun b hb => ?_) j).mono fun i _ hji hlaid hm => ?_
      · cases hb
        exact isMatch_further hbest hfailed
      · exact (hlaid hm).mono hkj (Nat.le_refl i)

theorem lays_optionalBody {s : Segment} (h : Lays text (run s)) :
    Lays text (optionalBody run s) := by
  intro k
  refine (h k).bind fun j o _ ho => ?_
  split
  · exact walks_pure ho
  · exact walks_pure fun _ => Outcome.laid_success

theorem lays_betweenBody {opening content closing : Segment} (ho : Lays text (run opening))
    (hi : Lays text (run content)) (hc : Lays text (run closing)) :
    Lays text (betweenBody run opening content closing) := by
  intro k
  refine (ho k).bind fun i opened hki hopened => ?_
  split
  · exact walks_pure fun hm => hopened hm
  refine (hi i).bind fun j inner _ hinner => ?_
  split
  · next hm => exact walks_pure fun hm' => by rw [hm'] at hm; cases hm
  next hm =>
  refine (hc j).bind fun n closed hjn hclosed => ?_
  split
  · next hm => exact walks_pure fun hm' => by rw [hm'] at hm; cases hm
  · refine walks_pure fun _ => Outcome.laid_ofData? fun v hv => ?_
    exact ((hinner (by simpa using hm)).data v hv).mono hki hjn

end

section

variable {element terminator closing separator opening operand : Parse lexer Outcome}

theorem walks_required {R : Nat → Outcome → Prop}
    (h : Walks text k element fun j o => o.isMatch = true → R j o) :
    Walks text k (required element) R := by
  refine h.bind fun j o _ ho => ?_
  split
  · next hm => exact walks_pure (ho hm)
  · exact walks_refused

theorem walks_requiredStep {R : Nat → Outcome → Prop}
    (h : Walks text k element fun j o => o.isMatch = true → R j o) :
    Walks text k (requiredStep element) R := by
  refine walks_position.bind fun _ _ _ ⟨hj, _⟩ => ?_
  subst hj
  refine (walks_required h).bind fun j o _ ho => ?_
  split
  · exact walks_refuse _
  · exact walks_pure ho

/-- The items lie one behind the other, up to the end of the text. -/
theorem walks_elementsUntilEnd (h : Lays text element) (fuel : Nat) :
    Walks text k (elementsUntilEnd element fuel) fun j items =>
      (Value.list items).Laid (lexer.Covers text) k j ∧
        lexer.found (lexer.place text j) = .ok none := by
  induction fuel generalizing k with
  | zero => exact walks_throw _
  | succ fuel ih =>
    refine walks_atEnd.bind fun _ done _ ⟨hj, hdone⟩ => ?_
    subst hj
    split
    · next hd => exact walks_pure ⟨.nil (Nat.le_refl _), hdone hd⟩
    · refine (walks_requiredStep (h _)).bind fun i o hki ho => ih.bind fun j items _ hitems => ?_
      exact walks_pure
        ⟨Value.laid_append (Value.laid_toList hki ho.data) hitems.1, hitems.2⟩

theorem walks_elementsUntil (ht : Lays text terminator) (h : Lays text element) (fuel : Nat) :
    Walks text k (elementsUntil terminator element fuel) fun j items =>
      (Value.list items).Laid (lexer.Covers text) k j := by
  induction fuel generalizing k with
  | zero => exact walks_throw _
  | succ fuel ih =>
    refine (ht k).bind fun i ended hki _ => ?_
    split
    · exact walks_pure (.nil hki)
    · refine walks_atEnd.bind fun _ done _ ⟨hj, _⟩ => ?_
      subst hj
      split
      · exact walks_pure (.nil hki)
      · refine (walks_requiredStep (h _)).bind fun i' o hii' ho =>
          ih.bind fun j items _ hitems => ?_
        have hfirst := (Value.laid_toList hii' ho.data).mono hki (Nat.le_refl i')
        exact walks_pure (Value.laid_append hfirst hitems)

theorem walks_separatedElements (hc : Lays text closing) (hs : Lays text separator)
    (h : Lays text element) (fuel : Nat) :
    Walks text k (separatedElements closing separator element fuel) fun j found =>
      (Value.list found.1).Laid (lexer.Covers text) k j := by
  induction fuel generalizing k with
  | zero => exact walks_throw _
  | succ fuel ih =>
    refine (walks_required (h k)).bind fun i o hki ho => ?_
    have hfirst := Value.laid_toList hki ho.data
    refine (hs i).bind fun i' sep hii' _ => ?_
    split
    · refine ih.bind fun j (items, closed) _ hitems => walks_pure ?_
      exact Value.laid_append (hfirst.mono (Nat.le_refl k) hii') hitems
    · refine (hc i').bind fun j closed hij _ => walks_pure ?_
      exact hfirst.mono (Nat.le_refl k) (Nat.le_trans hii' hij)

theorem walks_steps : Walks text k (steps : Parse lexer Nat) fun j _ => j = k :=
  walks_get_bind fun _ _ => walks_pure rfl

theorem walks_untilEndBody (h : Lays text element) :
    Walks text k (untilEndBody element) fun j o =>
      ∃ items, o = .withData (.list items) ∧ (Value.list items).Laid (lexer.Covers text) k j ∧
        lexer.found (lexer.place text j) = .ok none := by
  refine walks_steps.bind fun _ fuel _ hj => ?_
  subst hj
  exact (walks_elementsUntilEnd h fuel).bind fun j items _ hitems => walks_pure ⟨items, rfl, hitems⟩

theorem lays_untilEndBody (h : Lays text element) : Lays text (untilEndBody element) := by
  intro k
  refine (walks_untilEndBody h).mono fun j o _ ho _ => ?_
  obtain ⟨items, rfl, hitems, -⟩ := ho
  exact Outcome.laid_withData hitems

theorem lays_untilMatchBody (ht : Lays text terminator) (h : Lays text element) :
    Lays text (untilMatchBody terminator element) := by
  intro k
  refine walks_steps.bind fun _ fuel _ hj => ?_
  subst hj
  refine (walks_elementsUntil ht h fuel).bind fun j items _ hitems => walks_pure fun _ => ?_
  exact Outcome.laid_withData hitems

theorem lays_delimitedBody (ho : Lays text opening) (hc : Lays text closing)
    (hs : Lays text separator) (h : Lays text element) :
    Lays text (delimitedBody opening closing separator element) := by
  intro k
  refine (ho k).bind fun i opened hki hopened => ?_
  split
  · exact walks_pure fun hm => hopened hm
  refine (hc i).bind fun i' closed hii' _ => ?_
  have hki' := Nat.le_trans hki hii'
  split
  · exact walks_pure fun _ => Outcome.laid_withData (.nil hki')
  refine walks_steps.bind fun _ fuel _ hj => ?_
  subst hj
  refine (walks_separatedElements hc hs h fuel).bind fun j (items, closed) _ hitems => ?_
  simp only
  split
  · exact walks_pure fun _ => Outcome.laid_withData (hitems.mono hki' (Nat.le_refl j))
  · next hm => exact walks_pure fun hm' => absurd hm' hm

/-! ## Operators -/

theorem walks_operatorAbove? (tiers : List Tier) (floor : Option Nat) :
    Walks text k (operatorAbove? tiers floor : Parse lexer _) fun j _ => j = k := by
  refine walks_peek.bind fun _ found _ ⟨hj, _⟩ => ?_
  split
  · exact walks_pure hj
  · split
    · exact walks_pure hj
    · split
      · exact walks_pure hj
      · exact walks_pure hj

/-- What goes on from an operand knows where the operand began. -/
theorem walks_operandThen {more : Position → Value → Parse lexer Outcome}
    (ho : Lays text operand)
    (hmore : ∀ j start left, k ≤ j → (∀ t, lexer.FoundAt text k t → start = t.start) →
      left.Laid (lexer.Covers text) k j →
      Walks text j (more start left) fun i o => o.isMatch = true → o.Laid (lexer.Covers text) k i) :
    Walks text k (operandThen operand more) fun j o =>
      o.isMatch = true → o.Laid (lexer.Covers text) k j := by
  refine walks_position.bind fun _ start _ ⟨hj, hstart⟩ => ?_
  subst hj
  refine (ho _).bind fun j first hkj hfirst => ?_
  split
  · next hm => exact hmore j start _ hkj hstart (Value.laid_getD (hfirst hm).data)
  · next hm => exact walks_pure fun hm' => absurd hm' hm

/-- The loop goes on behind what it has read so far, which began at `i`. -/
theorem walks_expressionFrom (ho : Lays text operand) (tiers : List Tier) (fuel : Nat)
    (floor : Option Nat) {i : Nat} (hik : i ≤ k) {start : Position}
    (hstart : ∀ t, lexer.FoundAt text i t → start = t.start) {left : Value}
    (hleft : left.Laid (lexer.Covers text) i k) :
    Walks text k (expressionFrom operand tiers fuel floor start left) fun j o =>
      o.isMatch = true → o.Laid (lexer.Covers text) i j := by
  induction fuel generalizing k i floor start left with
  | zero => exact walks_throw _
  | succ fuel ih =>
    refine (walks_operatorAbove? tiers floor).bind fun j operator _ hj => ?_
    obtain rfl : k = j := hj.symm
    split
    · exact walks_pure fun _ => Outcome.laid_withData hleft
    next tier associativity =>
    have hright := walks_operandThen (k := k + 1) ho fun _ _ _ hkj hstart hleft =>
      ih (floorBehind tier associativity) hkj hstart hleft
    refine walks_taking (fun j hkj => walks_pure fun _ => ?_) hright ?_ ?_
    · exact Outcome.laid_withData (hleft.mono (Nat.le_refl i) hkj)
    · intro token j right hkj hm hright
      refine walks_get_bind fun s hs => ?_
      have hspan := hs.covers (Nat.lt_of_le_of_lt hik hkj) hstart
      have hoperand := Value.laid_getD (hright hm).data
      have hnode := laid_operation hspan hleft hoperand hik hkj token.value
      exact ih floor (Nat.le_trans hik (Nat.le_of_lt hkj)) hstart hnode
    · intro o hfailed hm
      rw [hfailed] at hm
      cases hm

theorem lays_binaryBody (ho : Lays text operand) (tiers : List Tier) :
    Lays text (binaryBody operand tiers) := fun _ =>
  walks_operandThen ho fun _ _ _ hkj hstart hleft => walks_get_bind fun _ _ =>
    walks_expressionFrom ho tiers _ none hkj hstart hleft

end

end Descent
