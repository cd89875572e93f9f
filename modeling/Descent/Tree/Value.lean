import Descent.Lexing.Token
import Descent.Tree.Fields

/-!
# Trees

What a parse builds: values, lists of values and nodes. A `Node` can be tagged with a kind and
with the span it was read from, and has named fields. In its written form the tag and the span
share the name space of the fields, so their names are reserved.
-/
namespace Descent

mutual

inductive Value where
  | null
  | number (x : Float)
  | text (s : String)
  | list (items : List Value)
  | node (n : Node)

structure Node where
  kind : Option String := none
  span : Option Span := none
  fields : List (String × Value) := []

end

/-- The name under which a node's kind is written. -/
def kindName : String := "type"

/-- The name under which a node's span is written. -/
def spanName : String := "span"

/-- A reserved name can not be the key of a segment. -/
def isReserved (name : String) : Bool := name == kindName || name == spanName

namespace Node

def get? (n : Node) (name : String) : Option Value := n.fields.lookup name

def insert (n : Node) (name : String) (value : Value) : Node :=
  { n with fields := Fields.insert name value n.fields }

/-- No kind, no span and no fields. -/
def isBlank (n : Node) : Bool := n.kind.isNone && n.span.isNone && n.fields.isEmpty

theorem get?_insert_self (n : Node) (name : String) (value : Value) :
    (n.insert name value).get? name = some value := Fields.lookup_insert_self ..

theorem get?_insert_of_ne {name other : String} (h : other ≠ name) (n : Node) (value : Value) :
    (n.insert name value).get? other = n.get? other := Fields.lookup_insert_of_ne h ..

end Node

def TokenValue.toValue : TokenValue → Value
  | text s => .text s
  | number x => .number x

namespace Value

instance : Inhabited Value := ⟨.null⟩

def isNull : Value → Bool
  | null => true
  | _ => false

def text? : Value → Option String
  | text s => some s
  | _ => none

def number? : Value → Option Float
  | number x => some x
  | _ => none

def items? : Value → Option (List Value)
  | list items => some items
  | _ => none

def node? : Value → Option Node
  | node n => some n
  | _ => none

def get? (v : Value) (name : String) : Option Value := v.node?.bind (·.get? name)

def kind? (v : Value) : Option String := v.node?.bind (·.kind)

def span? (v : Value) : Option Span := v.node?.bind (·.span)

end Value

/-! ## Equality

Numbers are compared as numbers: the two zeros are equal, and what is no number differs from
itself. -/

mutual

def Value.same : Value → Value → Bool
  | .null, .null => true
  | .number x, .number y => x == y
  | .text s, .text t => s == t
  | .list items, .list others => Value.sameItems items others
  | .node n, .node m => n.same m
  | _, _ => false

def Value.sameItems : List Value → List Value → Bool
  | [], [] => true
  | v :: vs, w :: ws => v.same w && Value.sameItems vs ws
  | _, _ => false

def Value.sameFields : List (String × Value) → List (String × Value) → Bool
  | [], [] => true
  | (n, v) :: vs, (m, w) :: ws => n == m && v.same w && Value.sameFields vs ws
  | _, _ => false

def Node.same : Node → Node → Bool
  | ⟨kind, span, fields⟩, ⟨kind', span', fields'⟩ =>
    kind == kind' && span == span' && Value.sameFields fields fields'

end

end Descent
