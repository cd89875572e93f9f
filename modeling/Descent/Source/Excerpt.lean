import Descent.Source.Position

/-!
# Excerpts

The lines of a text around a position, numbered, with a mark before the line of the position and a
pointer below the column.

* `lines_ne_nil`: every text has a line.
-/
namespace Descent

namespace Excerpt

/-- The lines of a text, without their newlines. -/
def lines : List Char → List (List Char)
  | [] => [[]]
  | c :: cs =>
    if c = '\n' then [] :: lines cs
    else
      match lines cs with
      | [] => [[c]]
      | line :: rest => (c :: line) :: rest

theorem lines_ne_nil (cs : List Char) : lines cs ≠ [] := by
  cases cs with
  | nil => simp [lines]
  | cons c cs =>
    unfold lines
    split
    · simp
    · split <;> simp

/-- A carriage return at the end of a line is not shown. -/
def visible (line : List Char) : List Char :=
  if line.getLast? = some '\r' then line.dropLast else line

/-- How many lines are shown before and behind the line of the position. -/
def reach : Nat := 2

/-- What stands before a line. -/
def margin (p : Position) (number : Nat) : List Char :=
  ((if number = p.line then "  > " else "    ") ++ toString number ++ " | ").toList

/-- The pointer stands below the column, or behind the line if that is shorter. Tabs of the line
are repeated so that it stays in place. -/
def pointer (p : Position) (line : List Char) : List Char :=
  List.replicate (margin p p.line).length ' ' ++
    (line.take (p.column - 1)).map (fun c => if c = '\t' then '\t' else ' ') ++
    "^--- here".toList

/-- What is shown of a line. -/
def shown (p : Position) (number : Nat) (line : List Char) : List (List Char) :=
  let line := visible line
  let whole := margin p number ++ line
  if number = p.line then [whole, pointer p line] else [whole]

end Excerpt

open Excerpt in
/-- The lines around a position as they are shown. -/
def excerpt (cs : List Char) (p : Position) : List (List Char) :=
  (((lines cs).zipIdx 1).filter fun (_, number) =>
    p.line - reach ≤ number && number ≤ p.line + reach).flatMap fun (line, number) =>
      shown p number line

end Descent
