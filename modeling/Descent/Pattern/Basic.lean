import Descent.Pattern.CharClass

/-!
# Patterns

A `Pattern` describes the beginnings of a text that match it. Among several it prefers some to
others: the left branch of an alternation to the right one, and more repetitions to fewer, or fewer
to more.

Patterns are put together by `sequence`, `alternation` and `times`, which keep them in a simple
form: literals that stand side by side are one literal, branches of one character each are one set,
and what all branches begin with is matched before they part.

* `commonStart_isPrefix_left`, `commonStart_isPrefix_right`: what two sequences have in common is a
  beginning of both.
-/
namespace Descent

namespace Pattern

/-- A place in a text that lies between two characters. -/
inductive Edge where
  | textStart
  | textEnd
  /-- Exactly one of the two neighbours is a word character. -/
  | word
  /-- Only what follows is a word character. -/
  | wordStart
  /-- Only what comes before is a word character. -/
  | wordEnd
  deriving DecidableEq

/-- How often a part may occur; `most = none` sets no bound. -/
structure Count where
  least : Nat
  most : Option Nat
  deriving DecidableEq

namespace Count

def isValid (count : Count) : Bool := count.most.all (count.least ≤ ·)

def atMostOne : Count := ⟨0, some 1⟩

def anyNumber : Count := ⟨0, none⟩

def atLeastOne : Count := ⟨1, none⟩

/-- How often it is worth repeating a part that takes nothing. -/
def cap (count : Count) : Count := ⟨min count.least 1, some (count.most.elim 1 (min · 1))⟩

end Count

end Pattern

inductive Pattern where
  | empty
  | literal (first : Char) (rest : List Char)
  | one (set : Pattern.CharSet)
  | edge (edge : Pattern.Edge)
  | seq (first second : Pattern)
  | either (left right : Pattern)
  /-- More repetitions are preferred if `greedy`, fewer otherwise. -/
  | repeated (count : Pattern.Count) (greedy : Bool) (body : Pattern)
  /-- A part in plain parentheses. -/
  | group (body : Pattern)
  deriving DecidableEq

namespace Pattern

/-- The pattern of the characters in a set. -/
def ofSet (set : CharSet) : Pattern :=
  match set.only? with
  | some c => .literal c []
  | none => .one set

/-- The length of the shortest match, unless a set without members stands in the way. -/
def shortest? : Pattern → Option Nat
  | empty => some 0
  | literal _ rest => some (rest.length + 1)
  | one set => if set = .none then none else some 1
  | edge _ => some 0
  | seq first second => do return (← first.shortest?) + (← second.shortest?)
  | either left right => do return min (← left.shortest?) (← right.shortest?)
  | repeated count _ body => body.shortest?.map (count.least * ·)
  | group body => body.shortest?

/-- Can a match be nothing but empty? -/
def takesNothing : Pattern → Bool
  | empty => true
  | literal _ _ => false
  | one _ => false
  | edge _ => true
  | seq first second => first.takesNothing && second.takesNothing
  | either left right => left.takesNothing && right.takesNothing
  | repeated count _ body => count.most.isSome && body.takesNothing
  | group body => body.takesNothing

/-! ## Sequences -/

/-- The parts of a sequence. -/
def parts : Pattern → List Pattern
  | empty => []
  | seq first second => first.parts ++ second.parts
  | p => [p]

def ofParts : List Pattern → Pattern
  | [] => .empty
  | [p] => p
  | p :: ps => .seq p (ofParts ps)

/-- Puts a part in front of others. A literal joins the literal behind it. -/
def putBefore : Pattern → List Pattern → List Pattern
  | literal c cs, literal d ds :: ps => literal c (cs ++ d :: ds) :: ps
  | p, ps => p :: ps

/-- Patterns in a row. -/
def sequence (ps : List Pattern) : Pattern := ofParts ((ps.flatMap parts).foldr putBefore [])

/-- A part repeated. What occurs no times is empty, and what occurs once is the part itself. -/
def times (count : Count) (greedy : Bool) (body : Pattern) : Pattern :=
  let count := if body.takesNothing then count.cap else count
  if count = ⟨0, some 0⟩ then .empty
  else if count = ⟨1, some 1⟩ then body
  else .repeated count greedy body

/-! ## Alternations -/

/-- The branches of an alternation. -/
def branches : Pattern → List Pattern
  | either left right => left.branches ++ right.branches
  | p => [p]

def ofBranches : List Pattern → Pattern
  | [] => .empty
  | [p] => p
  | p :: ps => .either p (ofBranches ps)

/-- The characters that a pattern takes one of. -/
def set? : Pattern → Option CharSet
  | literal c [] => some (.single c)
  | one set => some set
  | _ => none

/-- One of these branches. Where each of them takes one character, it is one of a set. -/
def choice (ps : List Pattern) : Pattern :=
  match ps.mapM set? with
  | some sets => ofSet (.ofList sets)
  | none => ofBranches ps

/-- Is there a part in plain parentheses? It differs from every other part. -/
def hasGroup : Pattern → Bool
  | group _ => true
  | seq first second => first.hasGroup || second.hasGroup
  | either left right => left.hasGroup || right.hasGroup
  | repeated _ _ body => body.hasGroup
  | _ => false

/-- The parts that both lists begin with. -/
def commonStart : List Pattern → List Pattern → List Pattern
  | p :: ps, q :: qs => if p = q ∧ !p.hasGroup then p :: commonStart ps qs else []
  | _, _ => []

theorem commonStart_isPrefix_left (ps qs : List Pattern) : commonStart ps qs <+: ps := by
  fun_induction commonStart ps qs with
  | case1 p ps q qs h ih => exact (List.prefix_cons_inj p).2 ih
  | case2 => exact List.nil_prefix
  | case3 => exact List.nil_prefix

theorem commonStart_isPrefix_right (ps qs : List Pattern) : commonStart ps qs <+: qs := by
  fun_induction commonStart ps qs with
  | case1 p ps q qs h ih => rw [← h.1]; exact (List.prefix_cons_inj p).2 ih
  | case2 => exact List.nil_prefix
  | case3 => exact List.nil_prefix

/-- The parts that all lists begin with. -/
def sharedStart : List (List Pattern) → List Pattern
  | [] => []
  | line :: lines => lines.foldl commonStart line

/-- The alternation of some patterns. If each of them is a sequence of two parts or more and they
all begin alike, that beginning is matched first, and only then the rest of one of them. -/
def alternation (ps : List Pattern) : Pattern :=
  let lines := (ps.flatMap branches).map parts
  let shared := if 1 < lines.length && lines.all (1 < ·.length) then sharedStart lines else []
  let rests := lines.map fun line => sequence (line.drop shared.length)
  sequence (shared ++ [choice (rests.flatMap branches)])

end Pattern

end Descent
