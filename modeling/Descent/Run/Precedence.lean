import Descent.Run.Parse

/-!
# Operator precedence

Reads operands with binary operators between them and groups them by the tiers of the operators. A
`floor` is the index of a tier: only operators of tighter tiers, which come later in the list, are
taken while it holds.
-/
namespace Descent

variable {lexer : Lexer}

/-! The kind and the fields of the nodes of binary expressions. -/

def binaryKind : String := "binary"

def operatorName : String := "operator"

def leftName : String := "left"

def rightName : String := "right"

/-- The node of an operator and its two operands. -/
def operation (span : Span) (operator : TokenValue) (left right : Value) : Value :=
  let n : Node := { kind := some binaryKind, span := some span }
  .node (((n.insert operatorName operator.toValue).insert leftName left).insert rightName right)

/-- Is a tier below the floor or at it, so that its operators have to wait? -/
def waits (floor : Option Nat) (tier : Nat) : Bool := floor.any (tier ≤ ·)

/-- The floor for the right operand of an operator: an operator of the same tier groups to the
left by waiting, and to the right by being taken. -/
def floorBehind (tier : Nat) : Associativity → Option Nat
  | .left => some tier
  | .right => if tier = 0 then none else some (tier - 1)

/-- The operator that stands next, with its tier, if the floor lets it be taken. -/
def operatorAbove? (tiers : List Tier) (floor : Option Nat) :
    Parse lexer (Option (Nat × Associativity)) := do
  match ← Parse.peek with
  | none => return none
  | some token =>
    match tierOf? tiers token with
    | none => return none
    | some tier =>
      if waits floor tier then return none
      else return tiers[tier]?.map fun t => (tier, t.associativity)

/-- The first operand and what `more` makes of it and its start. -/
def operandThen (operand : Parse lexer Outcome)
    (more : Position → Value → Parse lexer Outcome) : Parse lexer Outcome := do
  let start ← Parse.position
  let first ← operand
  if first.isMatch then more start (first.data?.getD .null) else return first

/-- Goes on with an expression that begins at `start` and is `left` so far. Each step reads an
operator, so the number of unread characters bounds the steps. If the operand behind an operator
fails, the operator is put back. -/
def expressionFrom (operand : Parse lexer Outcome) (tiers : List Tier) :
    Nat → Option Nat → Position → Value → Parse lexer Outcome
  | 0, _, _, _ => throw .endless
  | fuel + 1, floor, start, left => do
    match ← operatorAbove? tiers floor with
    | none => return .withData left
    | some (tier, associativity) =>
      let before := (← get).checkpoint
      match ← Parse.next with
      | none => return .withData left
      | some token =>
        let floorRight := floorBehind tier associativity
        let right ← operandThen operand (expressionFrom operand tiers fuel floorRight)
        if right.isMatch then
          let span := ⟨start, (← get).lastEnd⟩
          let left := operation span token.value left (right.data?.getD .null)
          expressionFrom operand tiers fuel floor start left
        else
          modify (·.returnTo before)
          return right

def binaryBody (operand : Parse lexer Outcome) (tiers : List Tier) : Parse lexer Outcome :=
  operandThen operand fun start left => do
    expressionFrom operand tiers ((← get).unread + 1) none start left

end Descent
