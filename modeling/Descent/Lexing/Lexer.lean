import Descent.Lexing.Recognizer
import Descent.Lexing.Adjustment

/-!
# Lexers

A `Lexer` is an ordered list of forms. The first form that reads something where the cursor
stands decides the token; tokens of skipped kinds are passed over. A character that begins no token
is an error or a token of its own, as the lexer chooses.
-/
namespace Descent

/-- How the tokens of one kind are read: the recognizers in the order they are tried, and what is
done to the token that the first of them reads. -/
structure TokenForm where
  kind : String
  recognizers : List Recognizer
  adjustments : List Adjustment := []

namespace TokenForm

/-- The token with this text between two cursors. -/
def token (form : TokenForm) (text : String) (before after : Cursor) : Except ReadError Token :=
  Adjustment.applyAll form.adjustments
    ⟨form.kind, .text text, ⟨before.position, after.position⟩⟩

/-- Reads a token with the first of the recognizers that matches. -/
def readWith (form : TokenForm) : List Recognizer → Reading (Option Token)
  | [] => pure none
  | recognizer :: recognizers => do
    let before ← get
    match ← recognizer.read with
    | none => form.readWith recognizers
    | some text =>
      let token ← ofExcept (form.token text before (← get))
      pure (some token)

def read (form : TokenForm) : Reading (Option Token) := form.readWith form.recognizers

end TokenForm

/-- What becomes of a character that begins no token. -/
inductive Unknown where
  | reject
  | emit
  deriving DecidableEq, Repr

/-- The kind of the tokens made from characters that begin no other token. -/
def unknownKind : String := "unknown"

structure Lexer where
  forms : List TokenForm := []
  skipped : List String := []
  unknown : Unknown := .reject

/-- What a lexer finds next. -/
inductive Lexed where
  | finished
  /-- A token that a form read. -/
  | token (t : Token)
  /-- A token made from a character that begins no other. -/
  | stray (t : Token)

def Lexed.token? : Lexed → Option Token
  | finished => none
  | token t | stray t => some t

namespace Lexer

def skips (lexer : Lexer) (kind : String) : Bool := lexer.skipped.contains kind

/-- Reads a token with the first of the forms that matches. -/
def readWith : List TokenForm → Reading (Option Token)
  | [] => pure none
  | form :: forms => do
    match ← form.read with
    | some t => pure (some t)
    | none => readWith forms

/-- Reads the character that begins no token. -/
def readStray (lexer : Lexer) : Reading Lexed := fun c =>
  match c.rest with
  | [] => .ok .finished c
  | ch :: _ =>
    let after := c.skip 1
    match lexer.unknown with
    | .reject => .error (.unexpected ch c.position) after
    | .emit => .ok (.stray ⟨unknownKind, .text ch.toString, ⟨c.position, after.position⟩⟩) after

/-- Reads up to and with the next token that is not skipped. Every token takes a character, so the
number of characters left bounds the number of tokens. -/
def readWithin (lexer : Lexer) : Nat → Reading Lexed
  | 0 => pure .finished
  | fuel + 1 => do
    if (← get).atEnd then pure .finished
    else
      match ← readWith lexer.forms with
      | some t => if lexer.skips t.kind then lexer.readWithin fuel else pure (.token t)
      | none => lexer.readStray

/-- Reads the next token. -/
def read (lexer : Lexer) : Reading Lexed := fun c => lexer.readWithin c.rest.length c

/-- Reads all tokens, at most `fuel` of them. -/
def readAll (lexer : Lexer) : Nat → Reading (List Token)
  | 0 => pure []
  | fuel + 1 => do
    match (← lexer.read).token? with
    | none => pure []
    | some t => (t :: ·) <$> lexer.readAll fuel

/-- All tokens of a text. -/
def tokenize (lexer : Lexer) (text : String) : Except ReadError (List Token) :=
  let c := Cursor.ofString text
  match lexer.readAll c.rest.length c with
  | .ok tokens _ => .ok tokens
  | .error e _ => .error e

end Lexer

end Descent
