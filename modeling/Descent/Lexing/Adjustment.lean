import Descent.Lexing.Token
import Descent.Source.ReadError

/-!
# Adjustments

What a form may do to a token once its text is read. Only a number can fail, and a token whose
value is already a number is left alone by every adjustment but a custom one.
-/
namespace Descent

inductive Adjustment where
  /-- The text becomes the number that it writes. -/
  | number
  /-- A token whose text is one of `words` gets this kind. -/
  | keywords (kind : String) (words : List String)
  /-- The sigil at the front of the text is dropped. -/
  | dropSigil (sigil : String)
  | custom (change : Token → Token)

namespace Adjustment

/-- What is left of a text behind the sigil, and the text itself if it does not begin with it. -/
def withoutSigil (sigil text : String) : String :=
  if sigil.toList.isPrefixOf text.toList then
    String.ofList (text.toList.drop sigil.toList.length)
  else text

def apply : Adjustment → Token → Except ReadError Token
  | number, t =>
    match t.value with
    | .number _ => .ok t
    | .text s =>
      match Number.ofText? s with
      | some x => .ok { t with value := .number x }
      | none => .error (.badNumber s t.start)
  | keywords kind words, t =>
    if t.value.text?.any words.contains then .ok { t with kind := kind } else .ok t
  | dropSigil sigil, t =>
    match t.value with
    | .number _ => .ok t
    | .text s => .ok { t with value := .text (withoutSigil sigil s) }
  | custom change, t => .ok (change t)

/-- Applies adjustments in order, up to the first that fails. -/
def applyAll (adjustments : List Adjustment) (t : Token) : Except ReadError Token :=
  adjustments.foldlM (fun t adjustment => adjustment.apply t) t

end Adjustment

end Descent
