import Descent.Tree.Value

/-!
# Trees as JSON

The compact JSON text of trees, spans and tokens. A node is an object with its kind, its span and
then its fields in the order of their names; a number is an object with its text, so that no digit
is lost, and a number that is not finite is `null`.

A `Writer` puts a text in front of what follows, so that a whole tree is written in one pass.
-/
namespace Descent

abbrev Writer := List Char → List Char

namespace Writer

def text (s : String) : Writer := fun tail => s.toList ++ tail

def nat (n : Nat) : Writer := fun tail => Nat.toDigits 10 n ++ tail

/-- A comma, if something stands before. -/
def comma (needed : Bool) : Writer := fun tail => if needed then ',' :: tail else tail

def toString (w : Writer) : String := String.ofList (w [])

end Writer

namespace Json

def hexDigit (n : Nat) : Char := Nat.digitChar n

/-- A character inside of a JSON string. Only the quote, the backslash and control characters are
escaped. -/
def escape (c : Char) : List Char :=
  if c = '"' then ['\\', '"']
  else if c = '\\' then ['\\', '\\']
  else if c = '\x08' then ['\\', 'b']
  else if c = '\x0c' then ['\\', 'f']
  else if c = '\n' then ['\\', 'n']
  else if c = '\r' then ['\\', 'r']
  else if c = '\t' then ['\\', 't']
  else if c.toNat < 0x20 then
    ['\\', 'u', '0', '0', hexDigit (c.toNat / 16), hexDigit (c.toNat % 16)]
  else [c]

def string (s : String) : Writer := fun tail =>
  '"' :: s.toList.foldr (fun c rest => escape c ++ rest) ('"' :: tail)

/-- A name and the colon behind it. -/
def name (s : String) : Writer := fun tail => string s (':' :: tail)

def number (x : Float) : Writer :=
  if x.isFinite then fun tail => '\x7b' :: name "num" (string (Number.text x) ('\x7d' :: tail))
  else Writer.text "null"

def position (p : Position) : Writer := fun tail =>
  '\x7b' :: name "offset" (Writer.nat p.offset (',' ::
    name "line" (Writer.nat p.line (',' ::
      name "column" (Writer.nat p.column ('\x7d' :: tail))))))

def span (s : Span) : Writer := fun tail =>
  '\x7b' :: name "start" (position s.start (',' :: name "end" (position s.stop ('\x7d' :: tail))))

def tokenValue : TokenValue → Writer
  | .text s => string s
  | .number x => number x

/-- A token is written with its line and column in place of its span. -/
def token (t : Token) : Writer := fun tail =>
  '\x7b' :: name kindName (string t.kind (',' ::
    name "value" (tokenValue t.value (',' ::
      name "line" (Writer.nat t.start.line (',' ::
        name "column" (Writer.nat t.start.column ('\x7d' :: tail))))))))

mutual

def value : Value → Writer
  | .null => Writer.text "null"
  | .number x => number x
  | .text s => string s
  | .list items => fun tail => '[' :: values false items (']' :: tail)
  | .node n => node n

/-- Values with commas between them; `more` says that one stands before. -/
def values (more : Bool) : List Value → Writer
  | [] => id
  | v :: vs => fun tail => Writer.comma more (value v (values true vs tail))

def fields (more : Bool) : List (String × Value) → Writer
  | [] => id
  | (n, v) :: rest => fun tail => Writer.comma more (name n (value v (fields true rest tail)))

def node : Node → Writer
  | ⟨none, none, fs⟩ => fun tail => '\x7b' :: fields false fs ('\x7d' :: tail)
  | ⟨some k, none, fs⟩ => fun tail =>
    '\x7b' :: name kindName (string k (fields true fs ('\x7d' :: tail)))
  | ⟨none, some s, fs⟩ => fun tail =>
    '\x7b' :: name spanName (span s (fields true fs ('\x7d' :: tail)))
  | ⟨some k, some s, fs⟩ => fun tail =>
    '\x7b' :: name kindName (string k (',' ::
      name spanName (span s (fields true fs ('\x7d' :: tail)))))

end

end Json

/-- The compact JSON text of a tree. -/
def Value.json (v : Value) : String := (Json.value v).toString

/-- The compact JSON text of a token. -/
def Token.json (t : Token) : String := (Json.token t).toString

/-- The compact JSON text of a span. -/
def Span.json (s : Span) : String := (Json.span s).toString

end Descent
