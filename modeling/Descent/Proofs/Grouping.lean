import Descent.Run.Precedence

/-!
# How operators group

An expression is a row of operands with operators between them. An `OpTree` groups such a row; it is
`Grouped` by tiers if below every operator stand only operators of tighter tiers, or of its own tier
on the side to which that tier groups.

* `OpTree.eq_of_grouped`: a row has at most one grouped tree.
* `waits_floorBehind`: which operators have to wait behind an operator. The floor lets through what
  may stand below it to the right (`fits_of_above`), and holds up what it may itself stand below to
  the left (`fits_of_waits`).
-/
namespace Descent

/-- An operand that was read: where it began, its data, and the end of the last token behind it. -/
structure Operand where
  start : Position
  data : Value
  stop : Position

/-- A token that was read as an operator of a tier. -/
structure Operator where
  token : Token
  tier : Nat

inductive OpTree where
  | leaf (operand : Operand)
  | node (operator : Operator) (left right : OpTree)

namespace OpTree

/-- The first operand of the row that a tree groups. -/
def first : OpTree → Operand
  | leaf operand => operand
  | node _ left _ => left.first

/-- The operators of the row, each with the operand behind it. -/
def rest : OpTree → List (Operator × Operand)
  | leaf _ => []
  | node operator left right => left.rest ++ (operator, right.first) :: right.rest

def operators (t : OpTree) : List Operator := t.rest.map Prod.fst

/-- Where the last operand ends. -/
def stop : OpTree → Position
  | leaf operand => operand.stop
  | node _ _ right => right.stop

/-- The data that a tree stands for. The span of a node goes from its first operand to its last. -/
def value : OpTree → Value
  | leaf operand => operand.data
  | node operator left right =>
    operation ⟨left.first.start, right.stop⟩ operator.token.value left.value right.value

@[simp] theorem operators_leaf (operand : Operand) : (leaf operand).operators = [] := rfl

@[simp] theorem operators_node (operator : Operator) (left right : OpTree) :
    (node operator left right).operators =
      left.operators ++ operator :: right.operators := by
  simp [operators, rest]

end OpTree

/-- May an operator of the tier `inner` stand on this side below one of the tier `outer`? -/
def Fits (tiers : List Tier) (side : Associativity) (outer inner : Nat) : Prop :=
  outer < inner ∨ inner = outer ∧ tiers[outer]?.map (·.associativity) = some side

/-- Every operator stands below one that it may stand below. -/
def OpTree.Grouped (tiers : List Tier) : OpTree → Prop
  | leaf _ => True
  | node operator left right =>
    (∀ inner ∈ left.operators, Fits tiers .left operator.tier inner.tier) ∧
    (∀ inner ∈ right.operators, Fits tiers .right operator.tier inner.tier) ∧
    left.Grouped tiers ∧ right.Grouped tiers

/-- Two operators can not stand below each other, one to the left and one to the right. -/
theorem not_fits_both {tiers : List Tier} {p q : Nat} (hl : Fits tiers .left p q)
    (hr : Fits tiers .right q p) : False := by
  rcases hl with hl | ⟨rfl, hl⟩
  · rcases hr with hr | ⟨hr, -⟩ <;> omega
  · rcases hr with hr | ⟨-, hr⟩
    · omega
    · rw [hl] at hr; cases hr

/-- If one row goes on behind the operator where another one has ended, then that operator would
stand below the other's to its left, and the other's below it to its right. -/
theorem OpTree.Grouped.not_append {tiers : List Tier} {p q : Operator} {l₁ r₁ l₂ r₂ : OpTree}
    {more : List (Operator × Operand)} (h₁ : (node p l₁ r₁).Grouped tiers)
    (h₂ : (node q l₂ r₂).Grouped tiers) (hl : l₁.rest = l₂.rest ++ (q, r₂.first) :: more)
    (hr : r₂.rest = more ++ (p, r₁.first) :: r₁.rest) : False := by
  have hq : q ∈ l₁.operators := by simp [operators, hl]
  have hp : p ∈ r₂.operators := by simp [operators, hr]
  exact not_fits_both (h₁.1 q hq) (h₂.2.1 p hp)

/-- A row of operands and operators has at most one grouped tree. -/
theorem OpTree.eq_of_grouped {tiers : List Tier} {t u : OpTree} (ht : t.Grouped tiers)
    (hu : u.Grouped tiers) (hf : t.first = u.first) (hr : t.rest = u.rest) : t = u := by
  induction t generalizing u with
  | leaf operand =>
    cases u with
    | leaf other => exact congrArg leaf hf
    | node q l₂ r₂ => simp [rest] at hr
  | node p l₁ r₁ ihl ihr =>
    cases u with
    | leaf other => simp [rest] at hr
    | node q l₂ r₂ =>
      simp only [rest] at hr
      rcases List.append_eq_append_iff.1 hr with ⟨more, hl, hm⟩ | ⟨more, hl, hm⟩
      · cases more with
        | nil =>
          simp only [List.append_nil, List.nil_append, List.cons.injEq, Prod.mk.injEq] at hl hm
          obtain ⟨⟨rfl, hfirst⟩, hrest⟩ := hm
          rw [ihl ht.2.2.1 hu.2.2.1 hf hl.symm, ihr ht.2.2.2 hu.2.2.2 hfirst hrest]
        | cons m more =>
          simp only [List.cons_append, List.cons.injEq] at hm
          obtain ⟨rfl, hm⟩ := hm
          exact (hu.not_append ht hl hm).elim
      · cases more with
        | nil =>
          simp only [List.append_nil, List.nil_append, List.cons.injEq, Prod.mk.injEq] at hl hm
          obtain ⟨⟨rfl, hfirst⟩, hrest⟩ := hm
          rw [ihl ht.2.2.1 hu.2.2.1 hf hl, ihr ht.2.2.2 hu.2.2.2 hfirst.symm hrest.symm]
        | cons m more =>
          simp only [List.cons_append, List.cons.injEq] at hm
          obtain ⟨rfl, hm⟩ := hm
          exact (ht.not_append hu hl hm).elim

/-! ## Floors -/

variable {tiers : List Tier} {tier outer inner : Nat} {side : Associativity}

theorem Fits.le (h : Fits tiers side outer inner) : outer ≤ inner := by
  rcases h with h | ⟨h, -⟩ <;> omega

/-- What may stand below an operator, on either side, may stand to the left below each operator that
the first one may stand to the left below. -/
theorem Fits.trans (h : Fits tiers .left outer tier) (h' : Fits tiers side tier inner) :
    Fits tiers .left outer inner := by
  rcases h with hlt | ⟨rfl, hl⟩
  · exact Or.inl (Nat.lt_of_lt_of_le hlt h'.le)
  · rcases h' with hlt | ⟨rfl, -⟩
    · exact Or.inl hlt
    · exact Or.inr ⟨rfl, hl⟩

/-- Behind an operator the looser ones have to wait, and those of its tier if they group to the
left. This includes the loosest tier, behind which there may be no floor at all. -/
theorem waits_floorBehind :
    waits (floorBehind tier side) inner = true ↔ inner < tier ∨ inner = tier ∧ side = .left := by
  cases side with
  | left => simp [floorBehind, waits, Nat.le_iff_lt_or_eq]
  | right =>
    by_cases h : tier = 0
    · simp [floorBehind, waits, h]
    · simp [floorBehind, waits, h]; omega

/-- What the floor behind an operator lets through may stand to the right below it. -/
theorem fits_of_above (hside : tiers[tier]?.map (·.associativity) = some side)
    (h : waits (floorBehind tier side) inner = false) : Fits tiers .right tier inner := by
  have hn : ¬ (inner < tier ∨ inner = tier ∧ side = .left) := by
    rw [← waits_floorBehind, h]; exact Bool.false_ne_true
  rcases Nat.lt_trichotomy inner tier with hlt | rfl | hgt
  · exact absurd (Or.inl hlt) hn
  · cases side with
    | left => exact absurd (Or.inr ⟨rfl, rfl⟩) hn
    | right => exact Or.inr ⟨rfl, hside⟩
  · exact Or.inl hgt

/-- Below an operator that the floor behind the last one holds up, that one may stand to the
left. -/
theorem fits_of_waits (hside : tiers[tier]?.map (·.associativity) = some side)
    (h : waits (floorBehind tier side) outer = true) : Fits tiers .left outer tier := by
  rcases waits_floorBehind.1 h with hlt | ⟨rfl, rfl⟩
  · exact Or.inl hlt
  · exact Or.inr ⟨rfl, hside⟩

/-- Tiers tighter than one above the floor are above it too. -/
theorem above_of_le {floor : Option Nat} (h : waits floor tier = false) (hle : tier ≤ inner) :
    waits floor inner = false := by
  cases floor with
  | none => rfl
  | some f =>
    simp only [waits, Option.any_some, decide_eq_false_iff_not] at *
    omega

end Descent
