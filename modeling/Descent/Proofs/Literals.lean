import Descent.Lexing.Recognizer

/-!
# Literals

A recognizer for literals tries longer ones first and takes the first that stands next. All texts
that stand next begin each other, so the first of them in this order is the only one of its length
and no other is longer: the order in which the literals were given has no say.

* `Longest`: a literal that stands next, and none that does is longer.
* `readFirst_eq_find?`, `longest_of_find?`: the search, and what it finds in a list in order.
* `read_ofLiterals`: a recognizer for literals reads the longest of them.
-/
namespace Descent.Recognizer

variable {texts other sorted : List String} {cs : List Char} {t u : String}

/-- The text is one of those that stand next, and none of these is longer. The empty text never
stands next. -/
structure Longest (texts : List String) (cs : List Char) (t : String) : Prop where
  mem : t ∈ texts
  ne_empty : t ≠ ""
  stands : t.toList <+: cs
  le : ∀ u ∈ texts, u.toList <+: cs → u.length ≤ t.length

/-- Of two texts that stand next the shorter begins the longer, so there is one longest. -/
theorem Longest.unique (ht : Longest texts cs t) (hu : Longest texts cs u) : u = t := by
  have hlength : u.toList.length = t.toList.length := by
    rw [String.length_toList, String.length_toList]
    exact Nat.le_antisymm (ht.le u hu.mem hu.stands) (hu.le t ht.mem ht.stands)
  have hbegins : u.toList <+: t.toList :=
    List.prefix_of_prefix_length_le hu.stands ht.stands (Nat.le_of_eq hlength)
  exact String.toList_inj.1 (hbegins.eq_of_length hlength)

theorem longest_congr (h : ∀ t, t ∈ other ↔ t ∈ texts) :
    Longest other cs t ↔ Longest texts cs t := by
  constructor
  · intro ht
    exact ⟨(h t).1 ht.mem, ht.ne_empty, ht.stands, fun u hu => ht.le u ((h u).2 hu)⟩
  · intro ht
    exact ⟨(h t).2 ht.mem, ht.ne_empty, ht.stands, fun u hu => ht.le u ((h u).1 hu)⟩

/-! ## The search -/

theorem literal_toList_iff : Scan.literal t.toList cs = true ↔ t ≠ "" ∧ t.toList <+: cs := by
  rw [Scan.literal_iff, ne_eq, String.toList_eq_nil_iff]

theorem readFirst_eq_find? (texts : List String) (c : Cursor) :
    readFirst texts c =
      (texts.find? fun t => Scan.literal t.toList c.rest).map fun t => (t, c.skip t.length) := by
  induction texts with
  | nil => rfl
  | cons t texts ih =>
    rw [readFirst, List.find?_cons, Cursor.takeLiteral]
    cases Scan.literal t.toList c.rest with
    | true => rw [if_pos rfl, String.length_toList]; rfl
    | false => rw [if_neg Bool.false_ne_true]; exact ih

/-- What is found first among texts in order is the longest. -/
theorem longest_of_find? (hsorted : sorted.Pairwise fun s t => t.length ≤ s.length)
    (h : (sorted.find? fun t => Scan.literal t.toList cs) = some t) : Longest sorted cs t := by
  obtain ⟨hliteral, before, behind, rfl, hbefore⟩ := List.find?_eq_some_iff_append.1 h
  obtain ⟨hne, hstands⟩ := literal_toList_iff.1 hliteral
  refine ⟨by simp, hne, hstands, fun u hu hprefix => ?_⟩
  rcases List.mem_append.1 hu with hu | hu
  · -- What was passed over does not stand next, unless it is empty.
    have hfails : ¬ (u ≠ "" ∧ u.toList <+: cs) := by
      rw [← literal_toList_iff]
      simpa using hbefore u hu
    obtain rfl : u = "" := Classical.not_not.1 fun hne => hfails ⟨hne, hprefix⟩
    exact Nat.zero_le _
  · rcases List.mem_cons.1 hu with rfl | hu
    · exact Nat.le_refl _
    · exact (List.pairwise_cons.1 (List.pairwise_append.1 hsorted).2.1).1 u hu

theorem read_literals (texts : List String) (c : Cursor) :
    (literals texts).read c =
      match texts.find? fun t => Scan.literal t.toList c.rest with
      | some t => .ok (some t) (c.skip t.length)
      | none => .ok none c := by
  simp only [read, readFirst_eq_find?]
  cases texts.find? fun t => Scan.literal t.toList c.rest <;> rfl

/-! ## Literals in any order -/

/-- A recognizer for literals finds the longest, or there is none. -/
theorem read_ofLiterals_cases (texts : List String) (c : Cursor) :
    (∃ t, Longest texts c.rest t ∧
      (ofLiterals texts).read c = .ok (some t) (c.skip t.length)) ∨
    (∀ t ∈ texts, t ≠ "" → ¬ t.toList <+: c.rest) ∧ (ofLiterals texts).read c = .ok none c := by
  obtain ⟨sorted, hsorted⟩ : ∃ sorted, ofLiterals texts = .literals sorted := ⟨_, rfl⟩
  have hmem {t : String} : t ∈ sorted ↔ t ∈ texts ∧ t ≠ "" := mem_sorted_iff hsorted
  rw [hsorted, read_literals]
  cases hfound : sorted.find? fun t => Scan.literal t.toList c.rest with
  | some t =>
    have ht := longest_of_find? (sorted_by_length hsorted) hfound
    refine .inl ⟨t, ⟨(hmem.1 ht.mem).1, ht.ne_empty, ht.stands, fun u hu hprefix => ?_⟩, rfl⟩
    by_cases hne : u = ""
    · subst hne
      exact Nat.zero_le _
    · exact ht.le u (hmem.2 ⟨hu, hne⟩) hprefix
  | none =>
    refine .inr ⟨fun t ht hne hprefix => ?_, rfl⟩
    exact List.find?_eq_none.1 hfound t (hmem.2 ⟨ht, hne⟩) (literal_toList_iff.2 ⟨hne, hprefix⟩)

theorem read_ofLiterals_of_longest {c : Cursor} (h : Longest texts c.rest t) :
    (ofLiterals texts).read c = .ok (some t) (c.skip t.length) := by
  rcases read_ofLiterals_cases texts c with ⟨u, hu, hread⟩ | ⟨hnone, -⟩
  · rwa [h.unique hu] at hread
  · exact absurd h.stands (hnone t h.mem h.ne_empty)

/-- A recognizer for literals reads the longest of those that stand next, of which there is one, and
stops behind it; where none stands next it reads nothing and stays. So it makes no difference in
which order literals are given, or how often. -/
theorem read_ofLiterals (texts : List String) :
    (∀ c : Cursor,
      (∃ t d, Longest texts c.rest t ∧ (∀ u, Longest texts c.rest u → u = t) ∧
        (ofLiterals texts).read c = .ok (some t) d ∧ d = c.skip t.length ∧
        c.rest = t.toList ++ d.rest) ∨
      (∀ t ∈ texts, t ≠ "" → ¬ t.toList <+: c.rest) ∧ (ofLiterals texts).read c = .ok none c) ∧
    ∀ other : List String, (∀ t, t ∈ other ↔ t ∈ texts) →
      (ofLiterals other).read = (ofLiterals texts).read := by
  constructor
  · intro c
    refine (read_ofLiterals_cases texts c).imp_left ?_
    rintro ⟨t, ht, hread⟩
    obtain ⟨rest, hrest⟩ := ht.stands
    refine ⟨t, _, ht, fun u hu => ht.unique hu, hread, rfl, ?_⟩
    rw [Cursor.rest_skip, ← hrest, ← String.length_toList, List.drop_left]
  · intro other h
    funext c
    rcases read_ofLiterals_cases texts c with ⟨t, ht, hread⟩ | ⟨hnone, hread⟩
    · rw [hread, read_ofLiterals_of_longest ((longest_congr h).2 ht)]
    · rcases read_ofLiterals_cases other c with ⟨t, ht, -⟩ | ⟨-, hread'⟩
      · exact absurd ht.stands (hnone t ((h t).1 ht.mem) ht.ne_empty)
      · rw [hread, hread']

/-- Signs that begin each other, one of them twice, and the empty text, in two orders. -/
theorem read_ofLiterals_signs :
    let texts := ["=", "", "=é", "==", "="]
    let other := ["==", "=", "=é", ""]
    let c : Cursor := .ofString "=é=="
    (∀ t, t ∈ other ↔ t ∈ texts) ∧ (ofLiterals texts).read c = .ok (some "=é") (c.skip 2) ∧
      (ofLiterals other).read c = .ok (some "=é") (c.skip 2) ∧
      (ofLiterals texts).read (.ofString "é=") = .ok none (.ofString "é=") := by
  intro texts other c
  have hsame (t : String) : t ∈ other ↔ t ∈ texts :=
    ⟨(by decide : ∀ t ∈ other, t ∈ texts) t, (by decide : ∀ t ∈ texts, t ∈ other) t⟩
  obtain ⟨hread, hother⟩ := read_ofLiterals texts
  have hlongest : Longest texts c.rest "=é" := ⟨by decide, by decide, by decide, by decide⟩
  have hfirst : (ofLiterals texts).read c = .ok (some "=é") (c.skip 2) := by
    rcases hread c with ⟨t, d, -, hunique, ht, rfl, -⟩ | ⟨hnone, -⟩
    · rw [ht, ← hunique "=é" hlongest]
      rfl
    · exact absurd hlongest.stands (hnone "=é" hlongest.mem hlongest.ne_empty)
  refine ⟨hsame, hfirst, by rw [hother other hsame, hfirst], ?_⟩
  have hnone : ∀ t ∈ texts, t ≠ "" → ¬ t.toList <+: (Cursor.ofString "é=").rest := by decide
  rcases hread (.ofString "é=") with ⟨t, -, ht, -⟩ | ⟨-, ht⟩
  · exact absurd ht.stands (hnone t ht.mem ht.ne_empty)
  · exact ht

end Descent.Recognizer
