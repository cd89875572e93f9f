import Descent.Grammar.Error
import Descent.Tree.Outcome

/-!
# Drafts

A `Draft` is the value of a rule while it is put together from the outcomes of the rule's segments.
Data with a key becomes a field, and data under a key that is used again becomes a list; the fields
of a merged node are taken over; data that is neither is passed through as the value of the rule.
-/
namespace Descent

/-- The name of the field that holds the passed value of a tagged rule, and the text of a token
node. -/
def valueName : String := "value"

/-- What has been put together. `repeated` names the fields that became lists because their key
was used again. -/
structure Draft where
  node : Node := {}
  repeated : List String := []
  passed : Option Value := none

namespace Draft

/-- Takes over the fields of a node. Its kind is taken over while there is none, and with it its
span. -/
def adopt (d : Draft) (n : Node) : Draft where
  node :=
    { kind := d.node.kind.or n.kind
      span := if d.node.kind.isNone then d.node.span.or n.span else d.node.span
      fields := n.fields.foldl (fun fs (name, v) => Fields.insert name v fs) d.node.fields }
  repeated := d.repeated.filter fun name => (n.fields.lookup name).isNone
  passed := d.passed

/-- Puts data under a key. `position` is where an unusable key is reported. -/
def store (d : Draft) (key : String) (data : Value) (position : Position) :
    Except ParseError Draft :=
  if isReserved key then .error (.reservedKey key position)
  else
    match d.node.get? key with
    | none => .ok { d with node := d.node.insert key data }
    | some first =>
      match first, d.repeated.contains key with
      | .list items, true => .ok { d with node := d.node.insert key (.list (items ++ [data])) }
      | _, _ =>
        .ok { d with
          node := d.node.insert key (.list [first, data])
          repeated := key :: d.repeated }

/-- Adds the outcome of a segment. -/
def add (d : Draft) (child : Outcome) (policy : Nesting) (position : Position) :
    Except ParseError Draft :=
  match child.data?, child.key with
  | none, _ => .ok d
  | some (.node n), none => .ok (d.adopt n)
  | some (.node n), some key =>
    if child.nesting.under policy = .merge then .ok (d.adopt n) else d.store key (.node n) position
  | some data, some key => d.store key data position
  | some data, none => .ok { d with passed := some data }

/-- The value of the rule. A tagged rule always gives a node, whose span is left to the segment
that runs the rule. -/
def close (d : Draft) : Option String → Option Value
  | some kind =>
    let node : Node := { d.node with kind := some kind, span := none }
    match d.passed with
    | none => some (.node node)
    | some v =>
      if (node.get? valueName).isNone then some (.node (node.insert valueName v))
      else some (.node node)
  | none => if d.node.isBlank then d.passed else some (.node d.node)

end Draft

end Descent
