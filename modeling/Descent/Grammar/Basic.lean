import Descent.Grammar.Segment

/-!
# Grammars

A `Grammar` is a list of rules with distinct names, and a limit on the depth of nesting. Rules are
added one by one; references are looked up when they are run, so `validate` can check them once all
rules are there.

* `find?_define`: a rule that was accepted is found under its name.
* `validate_eq_ok_iff`: a grammar is valid iff every reference names a rule.
-/
namespace Descent

structure Grammar where
  rules : List Rule := []
  maxDepth : Nat := 256

namespace Grammar

def find? (g : Grammar) (name : String) : Option Rule := g.rules.find? (·.name == name)

def defines (g : Grammar) (name : String) : Bool := (g.find? name).isSome

/-- The first reserved name among the keys of a rule's segments. -/
def reservedKey? (r : Rule) : Option String :=
  (r.segments.filterMap (·.options.key)).find? isReserved

/-- Adds a rule. A name can not be used twice, and no segment of the rule can have a reserved
key. -/
def define (g : Grammar) (r : Rule) : Except GrammarError Grammar :=
  if g.defines r.name then .error (.duplicateRule r.name)
  else
    match reservedKey? r with
    | some key => .error (.reservedKey r.name key)
    | none => .ok { g with rules := g.rules ++ [r] }

/-- Adds rules in order, up to the first that is refused. -/
def defineAll (g : Grammar) (rules : List Rule) : Except GrammarError Grammar :=
  rules.foldlM define g

/-- The first reference to a rule that is not there, with the rule it stands in. -/
def dangling? (g : Grammar) : Option (String × String) :=
  g.rules.findSome? fun r => (r.references.find? fun name => !g.defines name).map (r.name, ·)

/-- Checks that every reference names a rule. -/
def validate (g : Grammar) : Except GrammarError Unit :=
  match g.dangling? with
  | some (rule, reference) => .error (.unknownReference rule reference)
  | none => .ok ()

theorem mem_of_find? {g : Grammar} {name : String} {r : Rule} (h : g.find? name = some r) :
    r ∈ g.rules ∧ r.name = name :=
  ⟨List.mem_of_find?_eq_some h, by simpa using List.find?_some h⟩

theorem find?_define {g g' : Grammar} {r : Rule} (h : g.define r = .ok g') :
    g'.find? r.name = some r := by
  unfold define at h
  split at h
  · cases h
  · next hd =>
    split at h <;> cases h
    have hd : g.rules.find? (·.name == r.name) = none := by
      simpa [defines, find?] using hd
    simp only [find?, List.find?_append, hd, Option.none_or]
    simp

theorem validate_eq_ok_iff (g : Grammar) :
    g.validate = .ok () ↔ ∀ r ∈ g.rules, ∀ name ∈ r.references, g.defines name = true := by
  unfold validate dangling?
  constructor
  · intro h r hr name hn
    split at h
    · cases h
    · next hnone =>
      have hr := List.findSome?_eq_none_iff.1 hnone r hr
      have hf := List.find?_eq_none.1 (Option.map_eq_none_iff.1 hr) name hn
      simpa using hf
  · intro h
    split
    · next rule reference hs =>
      obtain ⟨r, hr, hm⟩ := List.exists_of_findSome?_eq_some hs
      obtain ⟨name, hf, -⟩ := Option.map_eq_some_iff.1 hm
      have hn := List.mem_of_find?_eq_some hf
      have hp := List.find?_some hf
      simp [h r hr name hn] at hp
    · rfl

end Grammar

end Descent
