import Descent.Number.Decimal
import Descent.Source.Position

/-!
# Tokens

A `Token` has a kind, a value and the span of the text it was read from. It keeps no line and column
beside the span: they are those of the span's start, so an adjustment can not change the one without
the other.
-/
namespace Descent

/-- What a token says: a text, or the number that a text was turned into. -/
inductive TokenValue where
  | text (s : String)
  | number (x : Float)
  deriving Repr

namespace TokenValue

def text? : TokenValue → Option String
  | text s => some s
  | number _ => none

def number? : TokenValue → Option Float
  | text _ => none
  | number x => some x

/-- The value as messages show it. -/
def shown : TokenValue → String
  | text s => s
  | number x => Number.text x

end TokenValue

structure Token where
  kind : String
  value : TokenValue
  span : Span
  deriving Repr

namespace Token

def start (t : Token) : Position := t.span.start

/-- Is it the token of this kind with this text? No number is. -/
def is (t : Token) (kind text : String) : Bool := t.kind == kind && t.value.text? == some text

theorem is_iff {t : Token} {kind text : String} :
    t.is kind text = true ↔ t.kind = kind ∧ t.value.text? = some text := by
  simp [is]

/-- The token as messages show it. -/
def shown (t : Token) : String := t.kind ++ " " ++ t.value.shown

end Token

end Descent
