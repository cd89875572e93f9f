import Descent.Run.Parse

/-!
# Running scripts

A request that reads tokens or runs a segment gives its answer to the script even if it fails; the
script decides what follows. A checkpoint that was never saved is none: there is nothing to return
to, and nothing to be unmoved from. A segment that is not at hand is nothing to match.
-/
namespace Descent

variable {lexer : Lexer}

/-- The answer of an operation that reads tokens. -/
def answerOf {α : Type} (x : Pull lexer α) : Parse lexer (Except ReadError α) := fun s =>
  match x s with
  | .ok a s => .ok (.ok a) s
  | .error e s => .ok (.error e) s

/-- The outcome of a run, or the error that it ended with. A run without an end has no answer. -/
def outcomeOf (x : Parse lexer Outcome) : Parse lexer (Except ParseError Outcome) := fun s =>
  match x s with
  | .ok o s => .ok (.ok o) s
  | .error (.error e) s => .ok (.error e) s
  | .error .endless s => .error .endless s

namespace Script

/-- Runs a script under a depth limit; `runs` are the runs of the segments that it has at hand, and
`saved` are its checkpoints, the latest first. -/
def run (depthLimit : Nat) (runs : List (Parse lexer Outcome)) (saved : List Checkpoint) :
    Script → Parse lexer Outcome
  | finish o => pure o
  | abort e => Parse.refuse e
  | peek answer => do (answer (← answerOf Stream.peek)).run depthLimit runs saved
  | next answer => do (answer (← answerOf Stream.next)).run depthLimit runs saved
  | position answer => do (answer (← answerOf Stream.position)).run depthLimit runs saved
  | offset answer => do (answer (← get).offset).run depthLimit runs saved
  | lastEnd answer => do (answer (← get).lastEnd).run depthLimit runs saved
  | depth answer => do (answer (← get).depth).run depthLimit runs saved
  | text answer => do (answer (← get).text).run depthLimit runs saved
  | save following => do following.run depthLimit runs ((← get).checkpoint :: saved)
  | restore slot following => do
    if let some c := saved[slot]? then modify (·.returnTo c)
    following.run depthLimit runs saved
  | unmoved slot answer => do
    (answer (saved[slot]? = some (← get).checkpoint)).run depthLimit runs saved
  | call part answer => do
    (answer (← outcomeOf (runs.getD part (pure .success)))).run depthLimit runs saved
  | limit answer => (answer depthLimit).run depthLimit runs saved

end Script

end Descent
