import Descent.Tree.Value

/-!
# Outcomes

What the run of a segment gives to the segment around it: a match, perhaps with data, or a failure
that another alternative may still mend.
-/
namespace Descent

/-- Whether a node's fields are merged into the node around it. `inherit` leaves that to the
rule. -/
inductive Nesting where
  | inherit
  | merge
  | nest
  deriving DecidableEq, Repr

/-- The mode of a child under a policy: its own, if it has one. -/
def Nesting.under (mode policy : Nesting) : Nesting :=
  match mode with
  | inherit => policy
  | explicit => explicit

/-- Why and where a segment did not match. `reached` is the offset of the furthest token that the
attempt came to, which is not always where the failure lies. -/
structure Failure where
  message : Option String
  position : Position
  reached : Nat := 0
  deriving DecidableEq, Repr

inductive Verdict where
  | matched (data : Option Value)
  | failed (failure : Failure)

/-- The outcome of a run: the verdict, the key under which the data is to be put, and how far the
run came (`progress`, in characters from where it began). -/
structure Outcome where
  verdict : Verdict
  key : Option String := none
  nesting : Nesting := .inherit
  progress : Nat := 0

namespace Outcome

/-- A match without data. -/
def success : Outcome := { verdict := .matched none }

def withData (data : Value) : Outcome := { verdict := .matched (some data) }

def failure (position : Position) (message : String) : Outcome :=
  { verdict := .failed { message := some message, position := position } }

/-- A failure that leaves its message to whoever reports it. -/
def silent (position : Position) : Outcome :=
  { verdict := .failed { message := none, position := position } }

def ofData? : Option Value → Outcome
  | some data => withData data
  | none => success

def isMatch (o : Outcome) : Bool :=
  match o.verdict with
  | .matched _ => true
  | .failed _ => false

def data? (o : Outcome) : Option Value :=
  match o.verdict with
  | .matched data => data
  | .failed _ => none

def failure? (o : Outcome) : Option Failure :=
  match o.verdict with
  | .matched _ => none
  | .failed f => some f

def message? (o : Outcome) : Option String := o.failure?.bind (·.message)

/-- The offset of the furthest token that a failed attempt came to. -/
def reached (o : Outcome) : Nat :=
  match o.verdict with
  | .matched _ => 0
  | .failed f => f.reached

theorem isMatch_iff_failure? (o : Outcome) : o.isMatch = true ↔ o.failure? = none := by
  unfold isMatch failure?; split <;> simp

@[simp] theorem data?_ofData? (data : Option Value) : (ofData? data).data? = data := by
  cases data <;> rfl

@[simp] theorem isMatch_ofData? (data : Option Value) : (ofData? data).isMatch = true := by
  cases data <;> rfl

/-- Applies a function to the data of a match. -/
def mapData (convert : Value → Value) (o : Outcome) : Outcome :=
  match o.verdict with
  | .matched data => { o with verdict := .matched (data.map convert) }
  | .failed _ => o

/-- The data with the span of its run: only a tagged node without a span takes it. -/
def located (span : Span) : Value → Value
  | .node n =>
    if n.kind.isSome && n.span.isNone then .node { n with span := some span } else .node n
  | v => v

/-- Data that has its span keeps it. -/
theorem located_located (p q : Span) (v : Value) : located p (located q v) = located q v := by
  cases v with
  | node n => cases hk : n.kind <;> cases hs : n.span <;> simp [located, hk, hs]
  | _ => rfl

end Outcome

end Descent
