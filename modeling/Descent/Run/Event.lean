import Descent.Grammar.Error
import Descent.Lexing.Token

/-!
# Events

What happens during a parse, for those who want to follow it. Events are only ever written.
-/
namespace Descent

inductive Event where
  /-- A parse from this rule begins. -/
  | parsing (root : String)
  /-- A form of the lexer read a token, perhaps not for the first time. -/
  | token (t : Token)
  /-- A segment begins at this depth. -/
  | entered (label : String) (depth : Nat) (position : Position)
  /-- A segment failed. -/
  | failed (label : String) (depth progress : Nat) (message : Option String)
  /-- The parse from this rule ended with an error. -/
  | refused (root : String) (error : ParseError)

end Descent
