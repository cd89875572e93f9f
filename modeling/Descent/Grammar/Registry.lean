import Descent.Grammar.Basic

/-!
# Registries

A `Registry` holds the rules of a grammar in a table, with an index that leads from a name to its
place there. Rules are only ever added, so a place that was looked up once stays right. A reference
makes use of this: it remembers the place of its rule (`Memory`), together with the number of the
registry that the place is for, since a reference can be run in more than one.

* `Registry.rule?_eq_find?`, `Registry.grammar_define`: a registry finds and accepts the rules that
  its grammar does.
* `Registry.indexOf?_define`: a place stays right when rules are added.
* `Memory.Right.lookUp_eq`, `Memory.Right.after_lookUp`, `Memory.Right.define`: a memory that is
  right gives what a new look-up would give, and stays right.
-/
namespace Descent

/-- The rules of a grammar by place, and their places by name. `id` tells registries apart. -/
structure Registry where
  id : Nat
  maxDepth : Nat := 256
  rules : List Rule := []
  index : List (String × Nat) := []
  /-- The index has the places of the rules and nothing else; so no two rules share a name. -/
  indexed : ∀ name i, index.lookup name = some i ↔ (rules[i]?).map Rule.name = some name := by simp

namespace Registry

variable {g g' : Registry} {r : Rule} {name : String} {i : Nat}

/-- The place of the rule of this name. -/
def indexOf? (g : Registry) (name : String) : Option Nat := g.index.lookup name

/-- The rule of this name. -/
def rule? (g : Registry) (name : String) : Option Rule := (g.indexOf? name).bind (g.rules[·]?)

/-- The rules and the limit, without the index. -/
def grammar (g : Registry) : Grammar := ⟨g.rules, g.maxDepth⟩

theorem indexOf?_eq_some_iff :
    g.indexOf? name = some i ↔ ∃ r, g.rules[i]? = some r ∧ r.name = name :=
  (g.indexed name i).trans Option.map_eq_some_iff

theorem indexOf?_eq_none_iff : g.indexOf? name = none ↔ ∀ r ∈ g.rules, r.name ≠ name := by
  constructor
  · intro h r hr hname
    obtain ⟨i, hi⟩ := List.mem_iff_getElem?.1 hr
    rw [indexOf?_eq_some_iff.2 ⟨r, hi, hname⟩] at h
    cases h
  · intro h
    cases hi : g.indexOf? name with
    | none => rfl
    | some i =>
      obtain ⟨r, hr, hname⟩ := indexOf?_eq_some_iff.1 hi
      exact absurd hname (h r (List.mem_of_getElem? hr))

/-- A registry finds the rules that its grammar finds. -/
theorem rule?_eq_find? (g : Registry) (name : String) : g.rule? name = g.grammar.find? name := by
  unfold rule?
  cases hi : g.indexOf? name with
  | none =>
    have hnone := indexOf?_eq_none_iff.1 hi
    exact (List.find?_eq_none.2 fun r hr => by simpa using hnone r hr).symm
  | some i =>
    obtain ⟨r, hr, hname⟩ := indexOf?_eq_some_iff.1 hi
    obtain ⟨hlt, hget⟩ := List.getElem?_eq_some_iff.1 hr
    rw [Option.bind_some, hr]
    refine (List.find?_eq_some_iff_getElem.2 ⟨by simpa using hname, i, hlt, hget, ?_⟩).symm
    -- A rule of this name before it would have its place in the index.
    intro j hj
    simp only [Bool.not_eq_true', beq_eq_false_iff_ne]
    intro hj'
    have := indexOf?_eq_some_iff.2 ⟨_, List.getElem?_eq_getElem (Nat.lt_trans hj hlt), hj'⟩
    rw [hi, Option.some_inj] at this
    omega

theorem defines_grammar (g : Registry) (name : String) :
    g.grammar.defines name = (g.indexOf? name).isSome := by
  rw [Grammar.defines, ← rule?_eq_find?, rule?]
  cases hi : g.indexOf? name with
  | none => rfl
  | some i =>
    obtain ⟨r, hr, -⟩ := indexOf?_eq_some_iff.1 hi
    simp [hr]

/-! ## Adding rules -/

/-- The registry with one more rule, at the place behind the others. -/
def add (g : Registry) (r : Rule) (h : g.indexOf? r.name = none) : Registry where
  id := g.id
  maxDepth := g.maxDepth
  rules := g.rules ++ [r]
  index := (r.name, g.rules.length) :: g.index
  indexed := by
    intro name i
    have hother := g.indexed name i
    by_cases hname : name = r.name
    · subst hname
      have hnew : (g.rules[i]?).map Rule.name ≠ some r.name := fun hi => by
        rw [indexOf?, hother.2 hi] at h
        cases h
      simp only [List.lookup_cons, beq_self_eq_true]
      grind
    · simp only [List.lookup_cons, beq_eq_false_iff_ne.2 hname]
      grind

/-- Adds a rule. A name can not be used twice, and no segment of the rule can have a reserved
key. -/
def define (g : Registry) (r : Rule) : Except GrammarError Registry :=
  match h : g.indexOf? r.name with
  | some _ => .error (.duplicateRule r.name)
  | none =>
    match Grammar.reservedKey? r with
    | some key => .error (.reservedKey r.name key)
    | none => .ok (g.add r h)

theorem define_eq_ok (h : g.define r = .ok g') :
    ∃ hnew : g.indexOf? r.name = none, g' = g.add r hnew := by
  unfold define at h
  split at h
  · cases h
  · next hnew =>
    split at h <;> cases h
    exact ⟨hnew, rfl⟩

/-- A registry accepts the rules that its grammar accepts. -/
theorem grammar_define (g : Registry) (r : Rule) :
    (g.define r).map grammar = g.grammar.define r := by
  unfold define Grammar.define
  rw [defines_grammar]
  split
  · next hi => simp [hi, Except.map]
  · next hi =>
    simp only [hi, Option.isSome_none, Bool.false_eq_true, if_false]
    cases Grammar.reservedKey? r <;> rfl

theorem id_define (h : g.define r = .ok g') : g'.id = g.id := by
  obtain ⟨hnew, rfl⟩ := define_eq_ok h
  rfl

/-- A place stays right when a rule is added. -/
theorem indexOf?_define (h : g.define r = .ok g') (hi : g.indexOf? name = some i) :
    g'.indexOf? name = some i := by
  obtain ⟨hnew, rfl⟩ := define_eq_ok h
  obtain ⟨r', hr', hname⟩ := indexOf?_eq_some_iff.1 hi
  refine indexOf?_eq_some_iff.2 ⟨r', ?_, hname⟩
  exact (List.getElem?_append_left (List.getElem?_eq_some_iff.1 hr').1).trans hr'

end Registry

/-! ## References with a memory -/

/-- The place of a rule in the registry of some number. -/
structure Resolution where
  registry : Nat
  place : Nat
  deriving DecidableEq, Repr

/-- What a reference has remembered: where its rule was found for the first time. -/
abbrev Memory := Option Resolution

namespace Memory

variable {memory : Memory} {g g' : Registry} {r : Rule} {name : String}

/-- Looks up the rule of a reference, and what is remembered behind it. The place is taken from
memory if it is for this registry. Otherwise the index is asked; the answer is remembered if nothing
was, and a memory of another registry stays. -/
def lookUp (memory : Memory) (name : String) (g : Registry) : Option Rule × Memory :=
  match memory.filter (·.registry = g.id) with
  | some known => (g.rules[known.place]?, memory)
  | none =>
    match g.indexOf? name with
    | some i => (g.rules[i]?, memory.or (some ⟨g.id, i⟩))
    | none => (none, memory)

/-- If a place in this registry is remembered, then it is the place of the name. -/
def Right (memory : Memory) (name : String) (g : Registry) : Prop :=
  ∀ known, memory = some known → known.registry = g.id → g.indexOf? name = some known.place

theorem right_none (name : String) (g : Registry) : Right none name g := nofun

/-- Once something is remembered it is never replaced. -/
theorem lookUp_some (known : Resolution) (name : String) (g : Registry) :
    (lookUp (some known) name g).2 = some known := by
  unfold lookUp
  split
  · rfl
  · split <;> rfl

/-- What a right memory gives is what a new look-up would give. -/
theorem Right.lookUp_eq (h : memory.Right name g) : (memory.lookUp name g).1 = g.rule? name := by
  unfold lookUp Registry.rule?
  split
  · next known hk =>
    obtain ⟨hm, hid⟩ := Option.filter_eq_some_iff.1 hk
    rw [h known hm (by simpa using hid), Option.bind_some]
  · split
    · next i hi => rw [hi, Option.bind_some]
    · next hi => rw [hi, Option.bind_none]

/-- A memory stays right through a look-up, for the registry and for every other. -/
theorem Right.after_lookUp (h : memory.Right name g') (hid : g'.id = g.id → g' = g) :
    (memory.lookUp name g).2.Right name g' := by
  intro known hk hreg
  cases memory with
  | some known' =>
    rw [lookUp_some] at hk
    exact h known hk hreg
  | none =>
    simp only [lookUp, Option.filter_none, Option.none_or] at hk
    split at hk
    · next i hi =>
      cases hk
      obtain rfl := hid hreg.symm
      exact hi
    · cases hk

theorem Right.define (h : memory.Right name g) (hdefine : g.define r = .ok g') :
    memory.Right name g' := fun known hk hreg =>
  Registry.indexOf?_define hdefine (h known hk (hreg.trans (Registry.id_define hdefine)))

end Memory

end Descent
