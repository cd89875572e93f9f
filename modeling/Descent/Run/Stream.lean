import Descent.Lexing.Lexer
import Descent.Run.Event

/-!
# Token streams

A `Stream` hands out the tokens of a text one by one and reads them only when they are asked for.
It looks ahead by one token, can return to a checkpoint, and carries what a parse keeps beside the
tokens: the end of the last token handed out, the depth of nesting and the journal of events.

* `checkpoint_returnTo`: after a return to a checkpoint the stream is at that checkpoint.
* `peek_peek`: looking twice shows the same token.
-/
namespace Descent

/-- A token that was looked at, and where the cursor stood before it was read. -/
structure Buffered where
  token : Token
  before : Bookmark

/-- The journal holds the events, the latest first; nothing reads it during a parse. -/
structure Stream (lexer : Lexer) where
  cursor : Cursor
  buffered : Option Buffered := none
  lastEnd : Position := .start
  depth : Nat := 0
  journal : List Event := []

/-- A state of a stream to return to. -/
structure Checkpoint where
  bookmark : Bookmark
  lastEnd : Position
  deriving DecidableEq, Repr

/-- An operation on a stream that reads tokens. If it fails, the stream is where the failure was
noticed. -/
abbrev Pull (lexer : Lexer) := EStateM ReadError (Stream lexer)

namespace Checkpoint

def offset (c : Checkpoint) : Nat := c.bookmark.position.offset

end Checkpoint

namespace Stream

variable {lexer : Lexer}

def ofString (text : String) : Stream lexer := { cursor := .ofString text }

def text (s : Stream lexer) : String := String.ofList s.cursor.text

def record (s : Stream lexer) (e : Event) : Stream lexer := { s with journal := e :: s.journal }

/-! ## Checkpoints -/

/-- The place before the next token, whether that was looked at or not. -/
def bookmark (s : Stream lexer) : Bookmark :=
  match s.buffered with
  | some b => b.before
  | none => s.cursor.bookmark

def checkpoint (s : Stream lexer) : Checkpoint := ⟨s.bookmark, s.lastEnd⟩

def offset (s : Stream lexer) : Nat := s.checkpoint.offset

/-- Returns to a checkpoint; the token that was looked at is forgotten. -/
def returnTo (s : Stream lexer) (c : Checkpoint) : Stream lexer :=
  { s with cursor := s.cursor.goTo c.bookmark, buffered := none, lastEnd := c.lastEnd }

@[simp] theorem checkpoint_returnTo (s : Stream lexer) (c : Checkpoint) :
    (s.returnTo c).checkpoint = c := rfl

@[simp] theorem depth_returnTo (s : Stream lexer) (c : Checkpoint) :
    (s.returnTo c).depth = s.depth := rfl

@[simp] theorem checkpoint_record (s : Stream lexer) (e : Event) :
    (s.record e).checkpoint = s.checkpoint := rfl

/-- The number of characters that were not handed out. -/
def unread (s : Stream lexer) : Nat := (Scan.dropBytes s.bookmark.byte s.cursor.text).length

/-! ## Reading -/

/-- Keeps a token that was read, with the cursor behind it. -/
def buffer (s : Stream lexer) (t : Token) (behind : Cursor) : Stream lexer :=
  { s with cursor := behind, buffered := some ⟨t, s.cursor.bookmark⟩ }

/-- Looks at the next token. At the end of the text the cursor passes over skipped tokens. -/
def peek : Pull lexer (Option Token) := fun s =>
  match s.buffered with
  | some b => .ok (some b.token) s
  | none =>
    match lexer.read s.cursor with
    | .error e c => .error e { s with cursor := c }
    | .ok .finished c => .ok none { s with cursor := c }
    | .ok (.token t) c => .ok (some t) ((s.buffer t c).record (.token t))
    | .ok (.stray t) c => .ok (some t) (s.buffer t c)

/-- Hands out the token that was looked at. -/
def handOut (s : Stream lexer) : Stream lexer :=
  match s.buffered with
  | some b => { s with buffered := none, lastEnd := b.token.span.stop }
  | none => s

/-- Hands out the next token. -/
def next : Pull lexer (Option Token) := do
  let token ← peek
  modify handOut
  return token

/-- Is no token left? -/
def atEnd : Pull lexer Bool := do
  return (← peek).isNone

/-- Where the next token starts, or the end of the text. -/
def position : Pull lexer Position := do
  match ← peek with
  | some token => return token.start
  | none => return (← get).cursor.position

theorem peek_of_buffered {s : Stream lexer} {b : Buffered} (h : s.buffered = some b) :
    peek s = .ok (some b.token) s := by
  simp [peek, h]

/-- A token that was seen is seen again, and nothing moves. -/
theorem peek_peek {s s' : Stream lexer} {t : Token} (h : peek s = .ok (some t) s') :
    peek s' = .ok (some t) s' := by
  unfold peek at h
  split at h
  · next b hb => cases h; exact peek_of_buffered hb
  · split at h <;> cases h <;> rfl

end Stream

end Descent
