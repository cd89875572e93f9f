import Descent.Pattern.Automaton

/-!
# Searches

What reads with a pattern only has to know where it matches in the text ahead. A `Search` tells
that, whatever engine stands behind it. A `Pattern` is searched for by its automaton.
-/
namespace Descent

/-- Finds where a match starts and where it stops, which is in the text that is searched. -/
structure Search where
  find : List Char → Option (Nat × Nat)
  within : ∀ {cs start stop}, find cs = some (start, stop) → start ≤ stop ∧ stop ≤ cs.length

/-- The search for a pattern, which looks only for matches at the front of the text. -/
def Pattern.search (p : Pattern) : Search where
  find cs := (p.length? cs).map fun n => (0, n)
  within := by
    intro cs start stop h
    obtain ⟨n, hn, he⟩ := Option.map_eq_some_iff.1 h
    cases he
    exact ⟨Nat.zero_le _, length?_le hn⟩

instance : Coe Pattern Search := ⟨Pattern.search⟩

end Descent
