import Descent.Source.Position

/-!
# What can go wrong while reading tokens

Each cause carries the position at which it was noticed.
-/
namespace Descent

inductive ReadError where
  /-- The text ended before `terminator`. -/
  | unterminated (terminator : String) (position : Position)
  /-- No token begins with `char`. -/
  | unexpected (char : Char) (position : Position)
  /-- `text` was taken for a number and is none. -/
  | badNumber (text : String) (position : Position)
  deriving DecidableEq, Repr

namespace ReadError

def position : ReadError → Position
  | unterminated _ p | unexpected _ p | badNumber _ p => p

def message : ReadError → String
  | unterminated terminator p =>
    "Reached end of code at line " ++ p.text ++ " but expected a " ++ terminator
  | unexpected char p => "Unexpected character '" ++ char.toString ++ "' at line " ++ p.text
  | badNumber text p => "Invalid number '" ++ text ++ "' at line " ++ p.text

end ReadError

end Descent
