/-!
# Positions and spans

A `Position` counts what lies before a place in a text: characters, lines and the characters of
its own line. `Position.after p cs` is the position reached from `p` by reading `cs`, and every
position a reader reports is of this form. A `Span` is a pair of positions.

* `Position.after_append`: reading two pieces in turn is reading them joined.
* `Position.offset_after`: the offset grows by the number of characters read.
-/
namespace Descent

/-- A place in a text: the characters before it, and its line and column, both counted from 1. -/
structure Position where
  offset : Nat
  line : Nat
  column : Nat
  deriving DecidableEq, Repr, Inhabited

namespace Position

/-- Where every text begins. -/
def start : Position := ⟨0, 1, 1⟩

/-- The position behind the character `c`; only a newline begins a new line. -/
def step (p : Position) (c : Char) : Position :=
  if c = '\n' then ⟨p.offset + 1, p.line + 1, 1⟩ else ⟨p.offset + 1, p.line, p.column + 1⟩

/-- The position behind the characters `cs`. -/
def after (p : Position) (cs : List Char) : Position := cs.foldl step p

@[simp] theorem after_nil (p : Position) : p.after [] = p := rfl

@[simp] theorem after_cons (p : Position) (c : Char) (cs : List Char) :
    p.after (c :: cs) = (p.step c).after cs := rfl

theorem after_append (p : Position) (cs ds : List Char) :
    p.after (cs ++ ds) = (p.after cs).after ds := List.foldl_append ..

@[simp] theorem offset_step (p : Position) (c : Char) : (p.step c).offset = p.offset + 1 := by
  unfold step; split <;> rfl

@[simp] theorem offset_after (p : Position) (cs : List Char) :
    (p.after cs).offset = p.offset + cs.length := by
  induction cs generalizing p with
  | nil => rfl
  | cons c cs ih => rw [after_cons, ih, offset_step, List.length_cons]; omega

/-- Positions are compared by offset, then line, then column. -/
def order (p q : Position) : Ordering :=
  (compare p.offset q.offset).then ((compare p.line q.line).then (compare p.column q.column))

instance : Ord Position := ⟨order⟩

/-- The later of two positions. -/
def latest (p q : Position) : Position := if (order p q).isLT then q else p

/-- The earlier of two positions. -/
def earliest (p q : Position) : Position := if (order p q).isGT then q else p

/-- Line and column, as messages show them. -/
def text (p : Position) : String := toString p.line ++ ":" ++ toString p.column

end Position

/-- A stretch of text; `stop` lies behind its last character. -/
structure Span where
  start : Position
  stop : Position
  deriving DecidableEq, Repr, Inhabited

namespace Span

/-- How many characters it covers; none if its ends are in the wrong order. -/
def length (s : Span) : Nat := s.stop.offset - s.start.offset

def isEmpty (s : Span) : Bool := s.stop.offset ≤ s.start.offset

/-- The smallest span that covers both. -/
def join (s t : Span) : Span := ⟨s.start.earliest t.start, s.stop.latest t.stop⟩

/-- The characters of `cs` that it covers; what lies behind the end of `cs` is left out. -/
def slice (s : Span) (cs : List Char) : List Char := (cs.drop s.start.offset).take s.length

def text (s : Span) : String := s.start.text ++ "-" ++ s.stop.text

end Span

end Descent
