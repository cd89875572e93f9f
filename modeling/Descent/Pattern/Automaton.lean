import Descent.Pattern.Basic

/-!
# Matching

A pattern is matched by an automaton that reads the text one character at a time. It keeps the
states in which the next character finds it as a list, those of preferred matches first, and no
state twice, so that each character costs no more than a look at every state.

* `behind_of_run`: a match ends no earlier than where the run began, and within the text.
* `length?_le`: a match is no longer than the text.
-/
namespace Descent.Pattern

/-! ## Edges -/

namespace Edge

/-- Does the edge lie between these neighbours? `none` is the outside of the text. -/
def isBetween (last next : Option Char) : Edge → Bool
  | textStart => last.isNone
  | textEnd => next.isNone
  | word => last.any isWord != next.any isWord
  | wordStart => !last.any isWord && next.any isWord
  | wordEnd => last.any isWord && !next.any isWord

end Edge

/-! ## Automata -/

/-- A state of an automaton. Other states are given by their numbers. -/
inductive State where
  /-- Takes a character of the set. -/
  | take (set : CharSet) (next : Nat)
  /-- Goes on where the edge lies. -/
  | edge (edge : Edge) (next : Nat)
  /-- Goes on in either way and prefers the first. -/
  | fork (first second : Nat)
  | accept

abbrev Automaton := Array State

/-- A state with two ways on, and how it is preferred to enter the body. -/
def State.choice (greedy : Bool) (body exit : Nat) : State :=
  if greedy then .fork body exit else .fork exit body

/-- What adds the states of a part to an automaton. It is given the state behind the part and
returns the first state of the part. -/
abbrev Builder := Nat → Automaton → Nat × Automaton

namespace Builder

/-- The characters of a text in a row. -/
def literal : List Char → Builder
  | [], next, a => (next, a)
  | c :: cs, next, a =>
    let (next, a) := literal cs next a
    (a.size, a.push (.take (.single c) next))

/-- `n` copies of a part in a row. -/
def copies (part : Builder) : Nat → Builder
  | 0, next, a => (next, a)
  | n + 1, next, a =>
    let (next, a) := part.copies n next a
    part next a

/-- At most `n` copies of a part in a row. Each of them can be left out with those behind it. -/
def optional (part : Builder) (greedy : Bool) : Nat → Builder
  | 0, exit, a => (exit, a)
  | n + 1, exit, a =>
    let (next, a) := part.optional greedy n exit a
    let (first, a) := part next a
    (a.size, a.push (.choice greedy first exit))

/-- A part with a choice behind it that leads back to its first state. -/
def loop (part : Builder) (greedy : Bool) : Builder := fun next a =>
  let again := a.size
  let (first, a) := part again (a.push .accept)
  (first, a.setIfInBounds again (.choice greedy first next))

end Builder

/-- Adds the states of a pattern.

A part that occurs any number of times is a choice in front of the part, and the part leads back to
it. If the part can be empty, that choice would come up again before a character is taken, with its
preferred way cut off; the part is then one that occurs at least once, or not at all. -/
def build : Pattern → Builder
  | empty => fun next a => (next, a)
  | literal c cs => Builder.literal (c :: cs)
  | one set => fun next a => (a.size, a.push (.take set next))
  | edge e => fun next a => (a.size, a.push (.edge e next))
  | seq first second => fun next a =>
    let (next, a) := second.build next a
    first.build next a
  | either left right => fun next a =>
    let (second, a) := right.build next a
    let (first, a) := left.build next a
    (a.size, a.push (.fork first second))
  | repeated ⟨least, some most⟩ greedy body => fun next a =>
    let (next, a) := Builder.optional body.build greedy (most - least) next a
    Builder.copies body.build least next a
  | repeated ⟨0, none⟩ greedy body => fun next a =>
    let again := a.size
    let (first, a) := Builder.loop body.build greedy next a
    if body.shortest?.any (0 < ·) then (again, a)
    else (a.size, a.push (.choice greedy first next))
  | repeated ⟨n + 1, none⟩ greedy body => fun next a =>
    let (first, a) := Builder.loop body.build greedy next a
    Builder.copies body.build n first a
  | group body => body.build

/-! ## Runs -/

namespace Automaton

/-- What has been met on the way through states that take no character: which states were visited,
and those of them from which only a character leads on, or none, the latest first. -/
structure Visit where
  seen : Array Bool
  found : List Nat

/-- Visits a state and then those that it leads to without a character. A way ends where it comes
to a state again, so the number of states bounds its length, and with it `fuel`. -/
def follow (a : Automaton) (holds : Edge → Bool) : Nat → Visit → Nat → Visit
  | 0, v, _ => v
  | fuel + 1, v, i =>
    if v.seen.getD i true then v
    else
      let seen := v.seen.setIfInBounds i true
      match a[i]? with
      | some (.fork first second) =>
        follow a holds fuel (follow a holds fuel { v with seen := seen } first) second
      | some (.edge e next) =>
        if holds e then follow a holds fuel { v with seen := seen } next
        else { v with seen := seen }
      | _ => ⟨seen, i :: v.found⟩

/-- The states to which these lead between two characters, in order of preference. -/
def reach (a : Automaton) (last next : Option Char) (states : List Nat) : List Nat :=
  let start : Visit := ⟨Array.replicate a.size false, []⟩
  (states.foldl (a.follow (·.isBetween last next) (a.size + 1)) start).found.reverse

def accepts (a : Automaton) (i : Nat) : Bool :=
  match a[i]? with
  | some .accept => true
  | _ => false

/-- The state in which the character leaves a state. -/
def step (a : Automaton) (c : Char) (i : Nat) : Option Nat :=
  match a[i]? with
  | some (.take set next) => if set.contains c then some next else none
  | _ => none

/-- Reads on in the text. `taken` characters were taken and led to `states`, `last` is the latest of
them, and `best` is the length of the best match so far.

States behind an accepting one are worse than a match that is found, so they are dropped. -/
def run (a : Automaton) :
    List Char → (taken : Nat) → Option Char → List Nat → Option Nat → Option Nat
  | [], taken, last, states, best =>
    if (a.reach last none states).any a.accepts then some taken else best
  | c :: cs, taken, last, states, best =>
    let reached := a.reach last (some c) states
    let best := if reached.any a.accepts then some taken else best
    match (reached.takeWhile fun i => !a.accepts i).filterMap (a.step c) with
    | [] => best
    | states => a.run cs (taken + 1) (some c) states best

theorem behind_of_run {a : Automaton} {cs : List Char} {taken n : Nat} {last : Option Char}
    {states : List Nat} {best : Option Nat} (h : a.run cs taken last states best = some n) :
    best = some n ∨ (taken ≤ n ∧ n ≤ taken + cs.length) := by
  fun_induction run a cs taken last states best with
  | case1 => grind
  | case2 => grind
  | case3 => grind
  | case4 => grind

end Automaton

/-- The length of the preferred match at the front of the text. -/
def length? (p : Pattern) (cs : List Char) : Option Nat :=
  let (first, a) := p.build 0 #[.accept]
  a.run cs 0 none [first] none

theorem length?_le {p : Pattern} {cs : List Char} {n : Nat} (h : p.length? cs = some n) :
    n ≤ cs.length := by
  rcases Automaton.behind_of_run h with h | ⟨-, h⟩
  · exact absurd h (by simp)
  · simpa using h

end Descent.Pattern
