import Descent.Run.Parse

/-!
# Repetitions

The loops of the segments that match an element again and again. An element that matched counts as
one step; since a step that reads nothing is refused, or reads a separator, the number of unread
characters bounds the steps. A list whose elements and separators all read nothing has no end
(`Stop.endless`).
-/
namespace Descent

variable {lexer : Lexer}

/-- Runs an element that has to match here. -/
def required (element : Parse lexer Outcome) : Parse lexer Outcome := do
  let o ← element
  if o.isMatch then return o
  else Parse.refuse (← Parse.complaint o)

/-- Runs an element that has to match here and to read something. -/
def requiredStep (element : Parse lexer Outcome) : Parse lexer Outcome := do
  let start ← Parse.position
  let o ← required element
  if o.progress = 0 then
    Parse.refuse (.mismatch start "Repeated rule matched without consuming input")
  else return o

/-- The data of the elements up to the end of the text. -/
def elementsUntilEnd (element : Parse lexer Outcome) : Nat → Parse lexer (List Value)
  | 0 => throw .endless
  | fuel + 1 => do
    if ← Parse.atEnd then return []
    else
      let o ← requiredStep element
      return o.data?.toList ++ (← elementsUntilEnd element fuel)

/-- The data of the elements up to the terminator, which is read too, or to the end of the text. -/
def elementsUntil (terminator element : Parse lexer Outcome) : Nat → Parse lexer (List Value)
  | 0 => throw .endless
  | fuel + 1 => do
    if (← terminator).isMatch then return []
    else if ← Parse.atEnd then return []
    else
      let o ← requiredStep element
      return o.data?.toList ++ (← elementsUntil terminator element fuel)

/-- The data of one or more elements with separators between them, and the outcome of the closing
delimiter behind them. -/
def separatedElements (closing separator element : Parse lexer Outcome) :
    Nat → Parse lexer (List Value × Outcome)
  | 0 => throw .endless
  | fuel + 1 => do
    let o ← required element
    if (← separator).isMatch then
      let (items, closed) ← separatedElements closing separator element fuel
      return (o.data?.toList ++ items, closed)
    else
      let closed ← closing
      return (o.data?.toList, closed)

/-- A bound on the steps of a repetition that begins here. -/
def steps : Parse lexer Nat := do
  return (← get).unread + 2

/-! ## The segments -/

def untilEndBody (element : Parse lexer Outcome) : Parse lexer Outcome := do
  let items ← elementsUntilEnd element (← steps)
  return .withData (.list items)

def untilMatchBody (terminator element : Parse lexer Outcome) : Parse lexer Outcome := do
  let items ← elementsUntil terminator element (← steps)
  return .withData (.list items)

def delimitedBody (opening closing separator element : Parse lexer Outcome) :
    Parse lexer Outcome := do
  let opened ← opening
  if !opened.isMatch then return opened
  else if (← closing).isMatch then return .withData (.list [])
  else
    let (items, closed) ← separatedElements closing separator element (← steps)
    if closed.isMatch then return .withData (.list items) else return closed

end Descent
