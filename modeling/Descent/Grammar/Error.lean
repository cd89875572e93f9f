import Descent.Source.Excerpt
import Descent.Source.ReadError

/-!
# What can go wrong with a grammar and with a parse

* `ParseError.render`: the message, and an excerpt of the text around the position if there is one.
-/
namespace Descent

/-- A grammar that can not be used. -/
inductive GrammarError where
  | duplicateRule (rule : String)
  | unknownReference (rule reference : String)
  | reservedKey (rule key : String)
  deriving DecidableEq, Repr

namespace GrammarError

def message : GrammarError → String
  | duplicateRule rule => "Rule '" ++ rule ++ "' is already defined"
  | unknownReference rule reference =>
    "Rule '" ++ rule ++ "' references undefined rule '" ++ reference ++ "'"
  | reservedKey rule key => "Rule '" ++ rule ++ "' uses reserved key '" ++ key ++ "'"

end GrammarError

/-- A parse that ended for good. A failure that another alternative may mend is no error. -/
inductive ParseError where
  /-- The text holds no token where one was looked for. -/
  | reading (error : ReadError)
  /-- The tokens do not follow the grammar. -/
  | mismatch (position : Position) (detail : String)
  | unknownRule (rule : String)
  | reservedKey (key : String) (position : Position)
  | tooDeep (position : Position) (limit : Nat)
  deriving DecidableEq, Repr

namespace ParseError

def position? : ParseError → Option Position
  | reading e => some e.position
  | mismatch p _ => some p
  | unknownRule _ => none
  | reservedKey _ p => some p
  | tooDeep p _ => some p

def message : ParseError → String
  | reading e => e.message
  | mismatch p detail => "Problem with line " ++ p.text ++ ": " ++ detail
  | unknownRule rule => "Rule '" ++ rule ++ "' is not defined"
  | reservedKey key p =>
    "Problem with line " ++ p.text ++ ": key '" ++ key ++ "' collides with a reserved AST field"
  | tooDeep p limit =>
    "Problem with line " ++ p.text ++ ": grammar nesting exceeds " ++ toString limit ++ " levels"

/-- The message with an excerpt of the text it is about. -/
def render (e : ParseError) (text : String) : String :=
  match e.position? with
  | none => e.message
  | some p =>
    e.message ++ "\n\n" ++
      String.ofList ((excerpt text.toList p).intersperse ['\n']).flatten

end ParseError

end Descent
