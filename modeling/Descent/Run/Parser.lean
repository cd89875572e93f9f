import Descent.Run.Segment

/-!
# Parsers

A parse runs one rule of a grammar, the root, and gives its data. A failure that is left becomes an
error. The rest of the text is not looked at: a rule that has to reach the end says so.
-/
namespace Descent

variable {lexer : Lexer}

namespace Grammar

/-- Runs the root and records an error that ends the parse. -/
def runRoot (grammar : Grammar) (rule : Rule) : Parse lexer Outcome := fun s =>
  match rule.run grammar s with
  | .ok o s => .ok o s
  | .error (.error e) s => .error (.error e) (s.record (.refused rule.name e))
  | .error .endless s => .error .endless s

/-- Parses from the root rule on: the data of a match, or an error. -/
def parse (grammar : Grammar) (root : String) : Parse lexer Value := do
  match grammar.find? root with
  | none => Parse.refuse (.unknownRule root)
  | some rule =>
    Parse.record (.parsing root)
    let o ← grammar.runRoot rule
    if o.isMatch then return o.data?.getD .null
    else
      let e ← Parse.complaint o
      Parse.record (.refused root e)
      Parse.refuse e

/-- Parses a text. -/
def parseText (grammar : Grammar) (lexer : Lexer) (root text : String) :
    EStateM.Result Stop (Stream lexer) Value :=
  grammar.parse root (Stream.ofString text)

end Grammar

end Descent
