import Descent.Pattern.Search
import Descent.Source.ReadError
import Descent.Source.Scan

/-!
# Cursors

A `Cursor` stands somewhere in a text and reads on from there. It counts what it has read both in
characters (`position`) and in bytes of the UTF-8 form (`byte`). Every reading operation is
`skip n` for the number `n` of characters it takes, so that the two counts keep step. A `Bookmark`
remembers a place to return to.

* `skip_add`: skipping twice is skipping once.
* `skip_eq_self_of_atEnd`: at the end of the text nothing moves.
-/
namespace Descent

structure Cursor where
  text : List Char
  rest : List Char
  byte : Nat
  position : Position
  deriving DecidableEq, Repr

/-- A place in a text to return to. -/
structure Bookmark where
  byte : Nat
  position : Position
  deriving DecidableEq, Repr

/-- A reading operation. If it fails, the cursor is where the failure was noticed. -/
abbrev Reading := EStateM ReadError Cursor

namespace Cursor

def ofString (text : String) : Cursor := ⟨text.toList, text.toList, 0, .start⟩

def atEnd (c : Cursor) : Bool := c.rest.isEmpty

/-- The character `k` places ahead. -/
def peek? (c : Cursor) (k : Nat) : Option Char := c.rest[k]?

/-- Passes over `n` characters, or over what is left if that is less. -/
def skip (c : Cursor) (n : Nat) : Cursor where
  text := c.text
  rest := c.rest.drop n
  byte := c.byte + Scan.utf8Length (c.rest.take n)
  position := c.position.after (c.rest.take n)

@[simp] theorem skip_zero (c : Cursor) : c.skip 0 = c := by
  simp [skip]

@[simp] theorem text_skip (c : Cursor) (n : Nat) : (c.skip n).text = c.text := rfl

@[simp] theorem rest_skip (c : Cursor) (n : Nat) : (c.skip n).rest = c.rest.drop n := rfl

theorem skip_add (c : Cursor) (n m : Nat) : (c.skip n).skip m = c.skip (n + m) := by
  simp [skip, List.drop_drop, List.take_add, Scan.utf8Length_append, Position.after_append,
    Nat.add_assoc]

theorem skip_eq_self_of_atEnd {c : Cursor} (h : c.atEnd = true) (n : Nat) : c.skip n = c := by
  have h : c.rest = [] := List.isEmpty_iff.1 h
  cases c
  simp_all [skip]

theorem offset_skip {c : Cursor} {n : Nat} (h : n ≤ c.rest.length) :
    (c.skip n).position.offset = c.position.offset + n := by
  simp [skip, h]

/-- Reads one character. -/
def next (c : Cursor) : Option Char × Cursor := (c.rest.head?, c.skip 1)

/-- Passes over the text if it stands next; the empty text never does. -/
def takeLiteral (text : String) (c : Cursor) : Bool × Cursor :=
  if Scan.literal text.toList c.rest then (true, c.skip text.toList.length) else (false, c)

/-- Reads characters while they are kept, and escaped ones. -/
def takeWhile (keep : Char → Bool) (escape : Option Char) (c : Cursor) : String × Cursor :=
  let (text, n) := Scan.takeWhile keep escape false c.rest
  (String.ofList text, c.skip n)

/-- Reads up to the terminator and passes over it. Without a terminator all is read in vain. -/
def takeUntil (terminator : String) (escape : Option Char) : Reading String := fun c =>
  match Scan.takeUntil terminator.toList escape .fresh c.rest with
  | some (text, n) => .ok (String.ofList text) (c.skip n)
  | none =>
    let c := c.skip c.rest.length
    .error (.unterminated terminator c.position) c

/-- Reads what a search finds, if that begins here. -/
def takePattern (search : Search) (c : Cursor) : Option String × Cursor :=
  match search.find c.rest with
  | some (0, stop) => (some (String.ofList (c.rest.take stop)), c.skip stop)
  | _ => (none, c)

def bookmark (c : Cursor) : Bookmark := ⟨c.byte, c.position⟩

/-- Returns to a bookmark. The byte count settles what is left to read. -/
def goTo (c : Cursor) (b : Bookmark) : Cursor where
  text := c.text
  rest := Scan.dropBytes b.byte c.text
  byte := b.byte
  position := b.position

@[simp] theorem text_goTo (c : Cursor) (b : Bookmark) : (c.goTo b).text = c.text := rfl

@[simp] theorem bookmark_goTo (c : Cursor) (b : Bookmark) : (c.goTo b).bookmark = b := rfl

theorem goTo_goTo (c : Cursor) (b d : Bookmark) : (c.goTo b).goTo d = c.goTo d := rfl

end Cursor

end Descent
