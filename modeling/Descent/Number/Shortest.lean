/-!
# The shortest decimal of a floating-point number

A positive binary floating-point number stands for all reals that round to it, its `Cell`. Among
the decimals `c * 10 ^ k` in the cell the shortest ones lie on the coarsest grid, that with the
greatest `k`, and of those the nearest to the number is chosen; of two equally near ones the
greater. All arithmetic is exact, on natural numbers.

* `Cell.nearest?_eq_none_iff`: a grid with a decimal in the cell has one next to the number.
* `Cell.shortest_spec`: what is found belongs to the cell, and no coarser grid has a decimal there.
-/
namespace Descent.Number

/-- The reals that round to a floating-point number. The three bounds count units of
`2 ^ exponent`; the ends belong to the cell if it is `closed`. -/
structure Cell where
  low : Nat
  value : Nat
  high : Nat
  exponent : Int
  closed : Bool
  deriving DecidableEq, Repr

namespace Cell

/-- The cell of `significand * 2 ^ exponent`. Below a power of two the next number is nearer, so
the cell is narrower there (`narrow`). -/
def ofBinary (significand : Nat) (exponent : Int) (narrow : Bool) : Cell where
  low := 4 * significand - (if narrow then 1 else 2)
  value := 4 * significand
  high := 4 * significand + 2
  exponent := exponent - 2
  closed := significand % 2 = 0

/-- `n` units of the cell are `n * (c.scale k).1 / (c.scale k).2` units of `10 ^ k`. -/
def scale (c : Cell) (k : Int) : Nat × Nat :=
  (Nat.pow 2 c.exponent.toNat * Nat.pow 10 (-k).toNat,
    Nat.pow 2 (-c.exponent).toNat * Nat.pow 10 k.toNat)

/-- Does `d * 10 ^ k` belong to the cell? -/
def covers (c : Cell) (k : Int) (d : Nat) : Bool :=
  let (unit, grid) := c.scale k
  if c.closed then c.low * unit ≤ d * grid && d * grid ≤ c.high * unit
  else c.low * unit < d * grid && d * grid < c.high * unit

/-- The multiple of `10 ^ k` in the cell that is nearest to the number. Only the two neighbours of
the number need to be looked at. -/
def nearest? (c : Cell) (k : Int) : Option Nat :=
  let (unit, grid) := c.scale k
  let below := c.value * unit / grid
  match c.covers k below, c.covers k (below + 1) with
  | false, false => none
  | true, false => some below
  | false, true => some (below + 1)
  | true, true =>
    if c.value * unit - below * grid < (below + 1) * grid - c.value * unit then some below
    else some (below + 1)

theorem covers_of_nearest? {c : Cell} {k : Int} {d : Nat} (h : c.nearest? k = some d) :
    c.covers k d = true := by
  simp only [nearest?] at h
  split at h
  · cases h
  · cases h; assumption
  · cases h; assumption
  · split at h <;> cases h <;> assumption

/-- The nearest decimal on the coarsest grid that has one, among `steps` grids from `10 ^ k`
down. -/
def shortestFrom (c : Cell) : Nat → Int → Option (Nat × Int)
  | 0, _ => none
  | steps + 1, k =>
    match c.nearest? k with
    | some d => some (d, k)
    | none => c.shortestFrom steps (k - 1)

/-- An exponent so great that the grid has no point in the cell but perhaps its first. -/
def topExponent (c : Cell) : Nat :=
  (Nat.toDigits 10 (c.high * Nat.pow 2 c.exponent.toNat / Nat.pow 2 (-c.exponent).toNat)).length

/-- Digits and exponent of the shortest decimal in the cell. The grids down to `10 ^ (-330)` are
tried; the finest cells are wider than that. -/
def shortest (c : Cell) : Nat × Int :=
  (c.shortestFrom (c.topExponent + 331) c.topExponent).getD (0, 0)

/-! ## The search -/

theorem covers_of_shortestFrom {c : Cell} {steps : Nat} {k : Int} {d : Nat} {e : Int}
    (h : c.shortestFrom steps k = some (d, e)) : c.covers e d = true := by
  induction steps generalizing k with
  | zero => cases h
  | succ steps ih =>
    unfold shortestFrom at h
    split at h
    · next hd => cases h; exact covers_of_nearest? hd
    · exact ih h

/-- No coarser grid that was tried has a decimal in the cell next to the number. -/
theorem nearest?_eq_none_of_shortestFrom {c : Cell} {steps : Nat} {k e i : Int} {d : Nat}
    (h : c.shortestFrom steps k = some (d, e)) (hi : e < i) (hk : i ≤ k) :
    c.nearest? i = none := by
  induction steps generalizing k with
  | zero => cases h
  | succ steps ih =>
    unfold shortestFrom at h
    split at h
    · cases h; omega
    · next hn =>
      by_cases hik : i = k
      · exact hik ▸ hn
      · exact ih h (by omega)

/-- A grid that has a decimal in the cell next to the number ends the search. -/
theorem exists_of_nearest? {c : Cell} {steps : Nat} {k i : Int} {d : Nat}
    (h : c.nearest? i = some d) (hi : i ≤ k) (hk : k < i + steps) :
    ∃ found, c.shortestFrom steps k = some found := by
  induction steps generalizing k with
  | zero => omega
  | succ steps ih =>
    unfold shortestFrom
    split
    · exact ⟨_, rfl⟩
    · next hn =>
      have hne : i ≠ k := fun hik => by rw [hik, hn] at h; cases h
      exact ih (by omega) (by omega)

/-! ## What is found -/

/-- Bounds that lie around the number, with a number of the cell between it and the upper one. -/
structure Proper (c : Cell) : Prop where
  low_pos : 0 < c.low
  low_lt : c.low < c.value
  lt_high : c.value + 1 < c.high

theorem proper_ofBinary {significand : Nat} (h : 0 < significand) (exponent : Int)
    (narrow : Bool) : (ofBinary significand exponent narrow).Proper := by
  constructor
  · simp only [ofBinary]; split <;> omega
  · simp only [ofBinary]; split <;> omega
  · simp only [ofBinary]; omega

variable {c : Cell} {k : Int} {d : Nat}

theorem scale_pos (c : Cell) (k : Int) : 0 < (c.scale k).1 ∧ 0 < (c.scale k).2 :=
  ⟨Nat.mul_pos (Nat.pow_pos (by decide)) (Nat.pow_pos (by decide)),
    Nat.mul_pos (Nat.pow_pos (by decide)) (Nat.pow_pos (by decide))⟩

/-- What lies inside of the bounds belongs to the cell, and so do the bounds if it is closed. -/
theorem covers_iff : c.covers k d = true ↔
    if c.closed then
      c.low * (c.scale k).1 ≤ d * (c.scale k).2 ∧ d * (c.scale k).2 ≤ c.high * (c.scale k).1
    else
      c.low * (c.scale k).1 < d * (c.scale k).2 ∧ d * (c.scale k).2 < c.high * (c.scale k).1 := by
  simp only [covers]
  split <;> simp only [Bool.and_eq_true, decide_eq_true_eq]

theorem covers_of_lt (hlow : c.low * (c.scale k).1 < d * (c.scale k).2)
    (hhigh : d * (c.scale k).2 < c.high * (c.scale k).1) : c.covers k d = true := by
  rw [covers_iff]
  split <;> omega

theorem le_of_covers (h : c.covers k d = true) :
    c.low * (c.scale k).1 ≤ d * (c.scale k).2 ∧ d * (c.scale k).2 ≤ c.high * (c.scale k).1 := by
  rw [covers_iff] at h
  split at h <;> omega

namespace Proper

variable (hc : c.Proper)
include hc

theorem low_scale (k : Int) : c.low * (c.scale k).1 < c.value * (c.scale k).1 :=
  Nat.mul_lt_mul_of_pos_right hc.low_lt (c.scale_pos k).1

theorem scale_high (k : Int) :
    c.value * (c.scale k).1 + (c.scale k).1 < c.high * (c.scale k).1 := by
  rw [← Nat.succ_mul]
  exact Nat.mul_lt_mul_of_pos_right hc.lt_high (c.scale_pos k).1

/-- Between the number and what belongs to the cell all belongs to it. -/
theorem covers_between {e : Nat} (h : c.covers k e = true)
    (hbetween : e * (c.scale k).2 ≤ d * (c.scale k).2 ∧
        d * (c.scale k).2 ≤ c.value * (c.scale k).1 ∨
      d * (c.scale k).2 ≤ e * (c.scale k).2 ∧ c.value * (c.scale k).1 ≤ d * (c.scale k).2) :
    c.covers k d = true := by
  have hlow := hc.low_scale k
  have hhigh := hc.scale_high k
  rw [covers_iff] at h ⊢
  cases hclosed : c.closed <;>
    simp only [hclosed, Bool.false_eq_true, if_true, if_false] at h ⊢ <;> omega

/-- If a grid has a decimal in the cell then it has one next to the number. -/
theorem nearest?_eq_none_iff : c.nearest? k = none ↔ ∀ d, c.covers k d = false := by
  constructor
  · intro h d
    have hgrid := (c.scale_pos k).2
    have hbelow := Nat.div_mul_le_self (c.value * (c.scale k).1) (c.scale k).2
    have habove := Nat.lt_div_mul_add (a := c.value * (c.scale k).1) hgrid
    simp only [nearest?] at h
    generalize c.value * (c.scale k).1 / (c.scale k).2 = below at h hbelow habove
    have hneither : c.covers k below = false ∧ c.covers k (below + 1) = false := by
      split at h
      · next h₁ h₂ => exact ⟨h₁, h₂⟩
      · cases h
      · cases h
      · split at h <;> cases h
    refine Bool.eq_false_iff.2 fun hd => ?_
    rcases Nat.lt_or_ge below d with hlt | hle
    · have hle : (below + 1) * (c.scale k).2 ≤ d * (c.scale k).2 := Nat.mul_le_mul_right _ hlt
      have hcovers := hc.covers_between hd (.inr ⟨hle, by rw [Nat.succ_mul]; omega⟩)
      rw [hneither.2] at hcovers
      cases hcovers
    · have hcovers := hc.covers_between hd (.inl ⟨Nat.mul_le_mul_right _ hle, hbelow⟩)
      rw [hneither.1] at hcovers
      cases hcovers
  · intro h
    cases hn : c.nearest? k with
    | none => rfl
    | some d => exact absurd (covers_of_nearest? hn) (by simp [h d])

/-- A grid that is no wider than a unit of the cell has a decimal in the cell. -/
theorem exists_nearest? (hfine : (c.scale k).2 ≤ (c.scale k).1) : ∃ d, c.nearest? k = some d := by
  obtain ⟨hunit, hgrid⟩ := c.scale_pos k
  have hbelow := Nat.div_mul_le_self (c.value * (c.scale k).1) (c.scale k).2
  have habove := Nat.lt_div_mul_add (a := c.value * (c.scale k).1) hgrid
  have hlow := hc.low_scale k
  have hhigh := hc.scale_high k
  have hcovers : c.covers k (c.value * (c.scale k).1 / (c.scale k).2 + 1) = true :=
    covers_of_lt (by rw [Nat.succ_mul]; omega) (by rw [Nat.succ_mul]; omega)
  cases hn : c.nearest? k with
  | some d => exact ⟨d, rfl⟩
  | none => rw [hc.nearest?_eq_none_iff.1 hn] at hcovers; cases hcovers

/-- From the top on no grid has a decimal in the cell: its first point but zero is too great. -/
theorem covers_eq_false_of_le (hk : c.topExponent ≤ k) (d : Nat) : c.covers k d = false := by
  obtain ⟨n, rfl⟩ : ∃ n : Nat, k = n := Int.eq_ofNat_of_zero_le (by omega)
  refine Bool.eq_false_iff.2 fun h => ?_
  obtain ⟨hlow, hhigh⟩ := le_of_covers h
  have hpos : 0 < d := Nat.pos_of_ne_zero fun hd => by
    have := Nat.mul_pos hc.low_pos (c.scale_pos n).1
    rw [hd, Nat.zero_mul] at hlow
    omega
  have hdigits := (Nat.length_toDigits_le_iff (b := 10) (by decide) Nat.length_toDigits_pos).1
    (Nat.le_refl c.topExponent)
  have htop : 10 ^ c.topExponent ≤ 10 ^ n := Nat.pow_le_pow_right (by decide) (by omega)
  refine absurd (Nat.lt_of_lt_of_le hdigits htop) (Nat.not_lt.2 ?_)
  refine (Nat.le_div_iff_mul_le (Nat.pow_pos (by decide))).2 ?_
  calc 10 ^ n * 2 ^ (-c.exponent).toNat
      ≤ d * (c.scale n).2 := by
        rw [Nat.mul_comm]
        exact Nat.le_mul_of_pos_left _ hpos
    _ ≤ c.high * (c.scale n).1 := hhigh
    _ = c.high * Nat.pow 2 c.exponent.toNat := by simp [scale]

end Proper

theorem two_pow_le {n m : Nat} (h : n ≤ 33 * m) : Nat.pow 2 n ≤ Nat.pow 10 (10 * m) :=
  calc 2 ^ n
      ≤ 2 ^ (33 * m) := Nat.pow_le_pow_right (by decide) h
    _ = (2 ^ 33) ^ m := Nat.pow_mul ..
    _ ≤ (10 ^ 10) ^ m := Nat.pow_le_pow_left (by decide) m
    _ = 10 ^ (10 * m) := (Nat.pow_mul ..).symm

/-- A grid that is no wider than a unit of the cell. -/
theorem scale_le {m n : Nat} (hn : n = 10 * m) (h : -c.exponent ≤ 33 * m) :
    (c.scale (-n)).2 ≤ (c.scale (-n)).1 :=
  calc (c.scale (-n)).2
      = 2 ^ (-c.exponent).toNat := by simp [scale]
    _ ≤ 10 ^ n := hn ▸ two_pow_le (by omega)
    _ ≤ 2 ^ c.exponent.toNat * 10 ^ n := Nat.le_mul_of_pos_left _ (Nat.pow_pos (by decide))
    _ = (c.scale (-n)).1 := by simp [scale]

/-- The search finds a decimal in the cell, and no coarser grid has one. -/
theorem shortest_spec (hc : c.Proper) (hfine : -1076 ≤ c.exponent) :
    c.covers c.shortest.2 c.shortest.1 = true ∧
      ∀ k d, c.shortest.2 < k → c.covers k d = false := by
  obtain ⟨d, hd⟩ := hc.exists_nearest? (scale_le (m := 33) rfl (by omega))
  obtain ⟨⟨e, i⟩, hfound⟩ : ∃ found, c.shortestFrom (c.topExponent + 331) c.topExponent =
      some found := exists_of_nearest? hd (by omega) (by omega)
  have hshortest : c.shortest = (e, i) := by rw [shortest, hfound]; rfl
  rw [hshortest]
  refine ⟨covers_of_shortestFrom hfound, fun k d hk => ?_⟩
  by_cases htop : k ≤ c.topExponent
  · exact hc.nearest?_eq_none_iff.1 (nearest?_eq_none_of_shortestFrom hfound hk htop) d
  · exact hc.covers_eq_false_of_le (by omega) d

end Cell

end Descent.Number
