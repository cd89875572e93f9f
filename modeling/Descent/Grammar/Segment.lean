import Descent.Tree.Draft

/-!
# Segments and rules

A `Segment` says what a stretch of tokens has to look like and what becomes of it. A `Rule` is a
named sequence of segments; segments refer to rules by name, so that rules can refer to each other
in any order. Both are plain descriptions; how they run is told elsewhere.

A `Script` describes a match that no other segment expresses, as a tree of requests and what to do
with the answers. It may ask the stream for anything that a stream can do, run segments that it has
at hand, and ask for the limit of the grammar.
-/
namespace Descent

/-- What a segment adds to the outcome of its shape: a key, a mode, and a label for the journal. -/
structure Options where
  key : Option String := none
  nesting : Nesting := .inherit
  label : Option String := none
  deriving DecidableEq, Repr

/-! ## Operators -/

inductive Associativity where
  | left
  | right
  deriving DecidableEq, Repr

/-- Operators that bind equally tightly, each a kind of token and its text. -/
structure Tier where
  operators : List (String × String)
  associativity : Associativity
  deriving DecidableEq, Repr

namespace Tier

/-- A tier of operators that are tokens of one kind. -/
def ofTexts (associativity : Associativity) (kind : String) (texts : List String) : Tier :=
  ⟨texts.map (kind, ·), associativity⟩

/-- The tier with one more operator. -/
def adding (t : Tier) (kind text : String) : Tier :=
  { t with operators := t.operators ++ [(kind, text)] }

def contains (t : Tier) (token : Token) : Bool :=
  t.operators.any fun (kind, text) => token.is kind text

end Tier

/-- The first of the tiers, the loosest first, that has the token as an operator. -/
def tierOf? (tiers : List Tier) (token : Token) : Option Nat :=
  tiers.findIdx? (·.contains token)

/-! ## Scripts -/

/-- A match written out by hand: requests, each with what follows on the answer. The checkpoints
that it saved are numbered from the latest, which is `0`, and the segments that it has at hand in
their order. -/
inductive Script where
  | finish (outcome : Outcome)
  | abort (error : ParseError)
  | peek (answer : Except ReadError (Option Token) → Script)
  | next (answer : Except ReadError (Option Token) → Script)
  | position (answer : Except ReadError Position → Script)
  | offset (answer : Nat → Script)
  | lastEnd (answer : Position → Script)
  | depth (answer : Nat → Script)
  | text (answer : String → Script)
  | save (following : Script)
  | restore (slot : Nat) (following : Script)
  /-- Is the stream where it was when the checkpoint was saved? -/
  | unmoved (slot : Nat) (answer : Bool → Script)
  /-- Runs a segment. The script is told of a failure and of an error as well as of a match. -/
  | call (part : Nat) (answer : Except ParseError Outcome → Script)
  /-- How deep may segments be nested? -/
  | limit (answer : Nat → Script)

/-! ## Segments -/

mutual

inductive Shape where
  /-- The token of this kind with this text. -/
  | exact (kind text : String)
  /-- A token of this kind, for its value. -/
  | ofKind (kind : String)
  /-- A token of this kind, for a node. -/
  | leaf (kind : String)
  /-- The token of this kind with this text, if it is there. -/
  | possibly (kind text : String)
  | nothing
  | fail (message : String)
  /-- The rule of this name. -/
  | reference (rule : String)
  | optional (segment : Segment)
  /-- The first alternative that matches. -/
  | choice (alternatives : List Segment)
  /-- Elements with separators between them, inside of delimiters. -/
  | delimited (opening closing separator element : Segment)
  | between (opening content closing : Segment)
  /-- Elements up to the terminator or the end of the text. -/
  | untilMatch (terminator element : Segment)
  /-- Elements up to the end of the text. -/
  | untilEnd (element : Segment)
  /-- Operands with binary operators between them, the loosest tier first. -/
  | binary (operand : Segment) (tiers : List Tier)
  /-- A rule that stands where it is used. -/
  | inline (rule : Rule)
  /-- A match written out by hand, and the segments that it has at hand. -/
  | script (request : Script) (parts : List Segment)

structure Segment where
  shape : Shape
  options : Options := {}

/-- A named sequence of segments. The outcome is put together under the policy `nesting`, tagged
with `kind` and converted. -/
structure Rule where
  name : String
  kind : Option String := none
  segments : List Segment := []
  nesting : Nesting := .inherit
  convert : Value → Value := id

end

namespace Segment

/-- Puts the data under a key. -/
def keyed (s : Segment) (key : String) : Segment :=
  { s with options := { s.options with key := some key } }

/-- Sets the mode of the data: merged into the rule's node, or nested in it. -/
def nested (s : Segment) (mode : Nesting) : Segment :=
  { s with options := { s.options with nesting := mode } }

def labelled (s : Segment) (label : String) : Segment :=
  { s with options := { s.options with label := some label } }

def exact (kind text : String) : Segment :=
  labelled { shape := .exact kind text } (kind ++ " " ++ text)

def ofKind (kind : String) : Segment := labelled { shape := .ofKind kind } kind

def leaf (kind : String) : Segment := labelled { shape := .leaf kind } kind

def possibly (kind text : String) : Segment :=
  labelled { shape := .possibly kind text } ("maybe " ++ kind ++ " " ++ text)

def nothing : Segment := labelled { shape := .nothing } "succeed"

def fail (message : String) : Segment := labelled { shape := .fail message } "fail"

def reference (rule : String) : Segment := labelled { shape := .reference rule } rule

def optional (s : Segment) : Segment :=
  labelled { shape := .optional s } ("optional " ++ s.options.label.getD "segment")

def choice (alternatives : List Segment) : Segment :=
  labelled { shape := .choice alternatives } "one of"

/-- The other segment where this one does not match. -/
def or (s other : Segment) : Segment := choice [s, other]

def delimited (opening closing separator element : Segment) : Segment :=
  labelled { shape := .delimited opening closing separator element } "delimited"

def between (opening content closing : Segment) : Segment :=
  labelled { shape := .between opening content closing } "between"

def untilMatch (terminator element : Segment) : Segment :=
  labelled { shape := .untilMatch terminator element } "until"

def untilEnd (element : Segment) : Segment :=
  labelled { shape := .untilEnd element } "until end of input"

def binary (operand : Segment) (tiers : List Tier) : Segment :=
  labelled { shape := .binary operand tiers } "binary"

/-- A match written out by hand has no label. -/
def script (request : Script) (parts : List Segment := []) : Segment :=
  { shape := .script request parts }

end Segment

namespace Rule

/-- The rule as a segment. -/
def toSegment (r : Rule) : Segment := Segment.labelled { shape := .inline r } r.name

/-- The rule with one more segment. -/
def andThen (r : Rule) (s : Segment) : Rule := { r with segments := r.segments ++ [s] }

/-- Changes the last segment, if there is one. -/
def modifyLast (r : Rule) (change : Segment → Segment) : Rule :=
  { r with segments := r.segments.dropLast ++ (r.segments.getLast?.map change).toList }

/-- Puts the data of the last segment under a key. -/
def keyLast (r : Rule) (key : String) : Rule := r.modifyLast (·.keyed key)

/-- Sets the mode of the last segment. -/
def nestLast (r : Rule) (mode : Nesting) : Rule := r.modifyLast (·.nested mode)

/-- Sets the mode of the segments that have none of their own. -/
def nestAll (r : Rule) (mode : Nesting) : Rule := { r with nesting := mode }

/-- Converts the data of the rule. -/
def mapped (r : Rule) (convert : Value → Value) : Rule := { r with convert := convert }

end Rule

/-! ## References -/

mutual

/-- The names of the rules that a segment refers to, in order and with repetitions. Those that a
script refers to are not known. -/
def Shape.references : Shape → List String
  | .exact .. | .ofKind _ | .leaf _ | .possibly .. | .nothing | .fail _ | .script .. => []
  | .reference rule => [rule]
  | .optional s => s.references
  | .choice alternatives => Segment.referencesOf alternatives
  | .delimited opening closing separator element =>
    opening.references ++ closing.references ++ separator.references ++ element.references
  | .between opening content closing =>
    opening.references ++ content.references ++ closing.references
  | .untilMatch terminator element => terminator.references ++ element.references
  | .untilEnd element => element.references
  | .binary operand _ => operand.references
  | .inline rule => rule.references

def Segment.references : Segment → List String
  | ⟨shape, _⟩ => shape.references

def Segment.referencesOf : List Segment → List String
  | [] => []
  | s :: rest => s.references ++ Segment.referencesOf rest

def Rule.references : Rule → List String
  | ⟨_, _, segments, _, _⟩ => Segment.referencesOf segments

end

theorem Segment.referencesOf_eq (segments : List Segment) :
    Segment.referencesOf segments = segments.flatMap Segment.references := by
  induction segments with
  | nil => rfl
  | cons s rest ih => rw [Segment.referencesOf, ih, List.flatMap_cons]

end Descent
