/-!
# Character sets

A set of characters is kept as the code points at which membership turns, in ascending order: the
first member, the first that is no member any more, and so on. A set has only one such list, however
it was put together, so equality of sets is equality of the lists.

* `eq_of_inside`: lists of turns with the same members are the same.
* `inside_merge`: two lists of turns are merged into that of a combined set.
* `contains_range`, `contains_union`, `contains_complement`, `contains_ofList`, `contains_caseless`:
  the members of each set.
-/
namespace Descent.Pattern

/-! ## Turns -/

namespace Turns

/-- Is this point a member, if points before the first turn are members or not as `now` says? -/
def inside (now : Bool) : List Nat → Nat → Bool
  | [], _ => now
  | t :: ts, n => if n < t then now else inside (!now) ts n

theorem inside_not (now : Bool) (ts : List Nat) (n : Nat) :
    inside (!now) ts n = !inside now ts n := by
  induction ts generalizing now with
  | nil => rfl
  | cons t ts ih => simp only [inside]; split <;> simp [ih]

/-- Before the first turn nothing has changed. -/
theorem inside_of_lt {now : Bool} {ts : List Nat} {n : Nat} (h : ∀ t ∈ ts, n < t) :
    inside now ts n = now := by
  cases ts with
  | nil => rfl
  | cons t ts => rw [inside, if_pos (h t List.mem_cons_self)]

theorem lt_of_ascending {p t : Nat} {ts : List Nat} (h : (t :: ts).Pairwise (· < ·)) (hp : p < t) :
    ∀ u ∈ t :: ts, p < u := by
  intro u hu
  rcases List.mem_cons.1 hu with rfl | hu
  · exact hp
  · exact Nat.lt_trans hp ((List.pairwise_cons.1 h).1 u hu)

/-- At the first turn membership changes. -/
theorem inside_first {now : Bool} {t : Nat} {ts : List Nat} (h : (t :: ts).Pairwise (· < ·)) :
    inside now (t :: ts) t = !now := by
  rw [inside, if_neg (Nat.lt_irrefl t), inside_of_lt (List.pairwise_cons.1 h).1]

theorem eq_of_inside {now : Bool} {ss ts : List Nat} (hs : ss.Pairwise (· < ·))
    (ht : ts.Pairwise (· < ·)) (h : ∀ n, inside now ss n = inside now ts n) : ss = ts := by
  induction ss generalizing now ts with
  | nil =>
    cases ts with
    | nil => rfl
    | cons t ts => have := h t; rw [inside_first ht] at this; cases now <;> cases this
  | cons s ss ih =>
    cases ts with
    | nil => have := h s; rw [inside_first hs] at this; cases now <;> cases this
    | cons t ts =>
      rcases Nat.lt_trichotomy s t with lt | rfl | lt
      · have := h s
        rw [inside_first hs, inside_of_lt (lt_of_ascending ht lt)] at this
        cases now <;> cases this
      · have ⟨lts, hs⟩ := List.pairwise_cons.1 hs
        have ⟨ltt, ht⟩ := List.pairwise_cons.1 ht
        refine congrArg (s :: ·) (ih hs ht fun n => (?_ : inside (!now) ss n = inside (!now) ts n))
        rcases Nat.lt_or_ge n s with lt | ge
        · rw [inside_of_lt fun u hu => Nat.lt_trans lt (lts u hu),
            inside_of_lt fun u hu => Nat.lt_trans lt (ltt u hu)]
        · have := h n
          rwa [inside, inside, if_neg (by omega), if_neg (by omega)] at this
      · have := h t
        rw [inside_first ht, inside_of_lt (lt_of_ascending hs lt)] at this
        cases now <;> cases this

/-- A turn is kept if it changes anything. -/
def turn (t : Nat) (before after : Bool) (ts : List Nat) : List Nat :=
  if before = after then ts else t :: ts

theorem inside_turn {t n : Nat} {before after : Bool} {ts : List Nat} (h : ∀ u ∈ ts, t < u) :
    inside before (turn t before after ts) n = if n < t then before else inside after ts n := by
  unfold turn
  split
  · next same =>
    split
    · next lt => exact inside_of_lt fun u hu => Nat.lt_trans lt (h u hu)
    · rw [same]
  · next differ =>
    rw [inside]
    split
    · rfl
    · cases before <;> cases after <;> simp_all

theorem mem_turn {t u : Nat} {before after : Bool} {ts : List Nat}
    (h : u ∈ turn t before after ts) : u = t ∨ u ∈ ts := by
  unfold turn at h
  split at h
  · exact .inr h
  · exact List.mem_cons.1 h

theorem ascending_turn {t : Nat} {before after : Bool} {ts : List Nat}
    (h : ∀ u ∈ ts, t < u) (hts : ts.Pairwise (· < ·)) :
    (turn t before after ts).Pairwise (· < ·) := by
  unfold turn
  split
  · exact hts
  · exact List.pairwise_cons.2 ⟨h, hts⟩

/-- The turns of what two sets are combined to; `x` and `y` say whether the points before are
members of them. -/
def merge (op : Bool → Bool → Bool) (x y : Bool) : List Nat → List Nat → List Nat
  | [], [] => []
  | s :: ss, [] => turn s (op x y) (op (!x) y) (merge op (!x) y ss [])
  | [], t :: ts => turn t (op x y) (op x (!y)) (merge op x (!y) [] ts)
  | s :: ss, t :: ts =>
    if s < t then turn s (op x y) (op (!x) y) (merge op (!x) y ss (t :: ts))
    else if t < s then turn t (op x y) (op x (!y)) (merge op x (!y) (s :: ss) ts)
    else turn s (op x y) (op (!x) (!y)) (merge op (!x) (!y) ss ts)
termination_by ss ts => ss.length + ts.length

theorem mem_merge {op : Bool → Bool → Bool} {x y : Bool} {ss ts : List Nat} {u : Nat}
    (h : u ∈ merge op x y ss ts) : u ∈ ss ∨ u ∈ ts := by
  fun_induction merge op x y ss ts with
  | case1 => exact .inl h
  | case2 x y s ss ih => have := mem_turn h; grind
  | case3 x y t ts ih => have := mem_turn h; grind
  | case4 x y s ss t ts _ ih => have := mem_turn h; grind
  | case5 x y s ss t ts _ _ ih => have := mem_turn h; grind
  | case6 x y s ss t ts _ _ ih => have := mem_turn h; grind

theorem lt_of_mem_merge {op : Bool → Bool → Bool} {x y : Bool} {ss ts : List Nat} {p : Nat}
    (hs : ∀ s ∈ ss, p < s) (ht : ∀ t ∈ ts, p < t) : ∀ u ∈ merge op x y ss ts, p < u := by
  intro u hu
  rcases mem_merge hu with hu | hu
  · exact hs u hu
  · exact ht u hu

theorem ascending_merge {op : Bool → Bool → Bool} {x y : Bool} {ss ts : List Nat}
    (hs : ss.Pairwise (· < ·)) (ht : ts.Pairwise (· < ·)) :
    (merge op x y ss ts).Pairwise (· < ·) := by
  fun_induction merge op x y ss ts with
  | case1 => exact hs
  | case2 x y s ss ih =>
    have ⟨lt, hs⟩ := List.pairwise_cons.1 hs
    exact ascending_turn (lt_of_mem_merge lt (by simp)) (ih hs ht)
  | case3 x y t ts ih =>
    have ⟨lt, ht⟩ := List.pairwise_cons.1 ht
    exact ascending_turn (lt_of_mem_merge (by simp) lt) (ih hs ht)
  | case4 x y s ss t ts first ih =>
    have ⟨lt, hs⟩ := List.pairwise_cons.1 hs
    exact ascending_turn (lt_of_mem_merge lt (lt_of_ascending ht first)) (ih hs ht)
  | case5 x y s ss t ts _ first ih =>
    have ⟨lt, ht⟩ := List.pairwise_cons.1 ht
    exact ascending_turn (lt_of_mem_merge (lt_of_ascending hs first) lt) (ih hs ht)
  | case6 x y s ss t ts _ _ ih =>
    have same : s = t := by omega
    have ⟨lts, hs⟩ := List.pairwise_cons.1 hs
    have ⟨ltt, ht⟩ := List.pairwise_cons.1 ht
    exact ascending_turn (lt_of_mem_merge lts (same ▸ ltt)) (ih hs ht)

/-- A point belongs to the combination as it belongs to the two sets. -/
theorem inside_merge {op : Bool → Bool → Bool} {x y : Bool} {ss ts : List Nat} {n : Nat}
    (hs : ss.Pairwise (· < ·)) (ht : ts.Pairwise (· < ·)) :
    inside (op x y) (merge op x y ss ts) n = op (inside x ss n) (inside y ts n) := by
  fun_induction merge op x y ss ts with
  | case1 => rfl
  | case2 x y s ss ih =>
    have ⟨lt, hs⟩ := List.pairwise_cons.1 hs
    rw [inside_turn (lt_of_mem_merge lt (by simp)), ih hs ht]
    simp only [inside]
    split <;> rfl
  | case3 x y t ts ih =>
    have ⟨lt, ht⟩ := List.pairwise_cons.1 ht
    rw [inside_turn (lt_of_mem_merge (by simp) lt), ih hs ht]
    simp only [inside]
    split <;> rfl
  | case4 x y s ss t ts first ih =>
    have ⟨lt, hs⟩ := List.pairwise_cons.1 hs
    rw [inside_turn (lt_of_mem_merge lt (lt_of_ascending ht first)), ih hs ht]
    simp only [inside]
    split
    · rw [if_pos (by omega)]
    · rfl
  | case5 x y s ss t ts _ first ih =>
    have ⟨lt, ht⟩ := List.pairwise_cons.1 ht
    rw [inside_turn (lt_of_mem_merge (lt_of_ascending hs first) lt), ih hs ht]
    simp only [inside]
    split
    · rw [if_pos (by omega)]
    · rfl
  | case6 x y s ss t ts _ _ ih =>
    have same : s = t := by omega
    subst same
    have ⟨lts, hs⟩ := List.pairwise_cons.1 hs
    have ⟨ltt, ht⟩ := List.pairwise_cons.1 ht
    rw [inside_turn (lt_of_mem_merge lts ltt), ih hs ht]
    simp only [inside]
    split <;> rfl

/-- The turns of all other points. -/
def flip : List Nat → List Nat
  | 0 :: ts => ts
  | ts => 0 :: ts

theorem inside_flip (ts : List Nat) (n : Nat) : inside false (flip ts) n = !inside false ts n := by
  have other (ts : List Nat) : inside true ts n = !inside false ts n := inside_not false ts n
  unfold flip
  split <;> simp [inside, other]

theorem ascending_flip {ts : List Nat} (h : ts.Pairwise (· < ·)) :
    (flip ts).Pairwise (· < ·) := by
  unfold flip
  split
  · exact (List.pairwise_cons.1 h).2
  · next nonzero =>
    refine List.pairwise_cons.2 ⟨fun u hu => Nat.pos_of_ne_zero fun zero => ?_, h⟩
    cases ts with
    | nil => cases hu
    | cons t ts =>
      rcases List.mem_cons.1 hu with rfl | hu
      · exact nonzero ts (zero ▸ rfl)
      · have := (List.pairwise_cons.1 h).1 u hu
        omega

end Turns

/-! ## Sets -/

/-- A set of characters. -/
structure CharSet where
  /-- The code points at which membership turns. -/
  turns : List Nat
  ascending : turns.Pairwise (· < ·)
  deriving DecidableEq

namespace CharSet

def contains (set : CharSet) (c : Char) : Bool := Turns.inside false set.turns c.toNat

def none : CharSet := ⟨[], .nil⟩

/-- Every character. -/
def all : CharSet := ⟨[0], by simp⟩

/-- The code point behind the last character. -/
def limit : Nat := 0x110000

/-- The characters with code points from `low` to `high`. Behind the last character nothing
turns. -/
def between (low high : Nat) : CharSet :=
  if h : low ≤ high then
    if high + 1 = limit then ⟨[low], List.pairwise_singleton ..⟩
    else ⟨[low, high + 1], List.pairwise_pair.2 (Nat.lt_succ_of_le h)⟩
  else none

def range (low high : Char) : CharSet := between low.toNat high.toNat

/-- The set of one character. -/
def single (c : Char) : CharSet := range c c

def union (first second : CharSet) : CharSet where
  turns := Turns.merge or false false first.turns second.turns
  ascending := Turns.ascending_merge first.ascending second.ascending

def complement (set : CharSet) : CharSet where
  turns := Turns.flip set.turns
  ascending := Turns.ascending_flip set.ascending

/-- The characters in at least one of the sets. -/
def ofList (sets : List CharSet) : CharSet := sets.foldr union none

/-- The only member of a set that has one. -/
def only? (set : CharSet) : Option Char :=
  match set.turns with
  | [t, u] => if u = t + 1 then some (Char.ofNat t) else Option.none
  | _ => Option.none

@[simp] theorem contains_none (c : Char) : none.contains c = false := rfl

@[simp] theorem contains_all (c : Char) : all.contains c = true := by
  simp [contains, all, Turns.inside]

theorem contains_between (low high : Nat) (c : Char) :
    (between low high).contains c = decide (low ≤ c.toNat ∧ c.toNat ≤ high) := by
  have bound : c.toNat < limit := by
    have := c.valid
    simp only [UInt32.isValidChar, Nat.isValidChar] at this
    show c.val.toNat < limit
    unfold limit
    omega
  unfold between
  split
  · split
    · simp only [contains, Turns.inside]
      split <;> simp <;> omega
    · simp only [contains, Turns.inside]
      split
      · simp; omega
      · split <;> simp <;> omega
  · simp; omega

@[simp] theorem contains_range (low high c : Char) :
    (range low high).contains c = decide (low ≤ c ∧ c ≤ high) :=
  contains_between low.toNat high.toNat c

@[simp] theorem contains_single (c d : Char) : (single c).contains d = decide (d = c) := by
  rw [single, contains_range, Bool.eq_iff_iff, decide_eq_true_eq, decide_eq_true_eq]
  exact ⟨fun h => Char.le_antisymm h.2 h.1, fun h => by simp [h]⟩

@[simp] theorem contains_union (first second : CharSet) (c : Char) :
    (first.union second).contains c = (first.contains c || second.contains c) := by
  have h : Turns.inside (or false false) (union first second).turns c.toNat = _ :=
    Turns.inside_merge first.ascending second.ascending
  exact h

@[simp] theorem contains_complement (set : CharSet) (c : Char) :
    set.complement.contains c = !set.contains c :=
  Turns.inside_flip set.turns c.toNat

@[simp] theorem contains_ofList (sets : List CharSet) (c : Char) :
    (ofList sets).contains c = sets.any fun set => set.contains c := by
  induction sets with
  | nil => rfl
  | cons set sets ih => rw [List.any_cons, ← ih]; exact contains_union set (ofList sets) c

/-! ## Letter case -/

/-- The spellings of each letter of ASCII in either case, the Kelvin sign and the long s among
them, whose case folds into `k` and `s`. -/
def spellings : List (List Char) :=
  "abcdefghijklmnopqrstuvwxyz".toList.map fun c =>
    [c, c.toUpper] ++ if c = 'k' then ['\u212A'] else if c = 's' then ['\u017F'] else []

/-- The set together with all spellings of the letters in it. -/
def caseless (set : CharSet) : CharSet :=
  set.union (ofList ((spellings.filter (·.any set.contains)).map fun cs =>
    ofList (cs.map single)))

theorem contains_caseless (set : CharSet) (c : Char) :
    set.caseless.contains c =
      (set.contains c || spellings.any fun cs => cs.any set.contains && cs.contains c) := by
  rw [caseless, contains_union, contains_ofList]
  congr 1
  simp only [List.any_map, List.any_filter, Function.comp_def, contains_ofList, contains_single]
  congr 1
  funext cs
  congr 1
  rw [Bool.eq_iff_iff]
  simp

end CharSet

end Descent.Pattern
