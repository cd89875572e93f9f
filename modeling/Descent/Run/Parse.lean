import Descent.Grammar.Segment
import Descent.Run.Stream

/-!
# Parsing operations

A `Parse` works on a stream of tokens and ends with a result or for good. `attempt` runs the body of
a segment: it goes one level deeper, follows the run in the journal, locates the data of a match and
takes everything back if there is none.
-/
namespace Descent

/-- Why a parse ended for good. -/
inductive Stop where
  | error (e : ParseError)
  /-- A repetition would go on for ever without reading anything. -/
  | endless
  deriving DecidableEq, Repr

abbrev Parse (lexer : Lexer) := EStateM Stop (Stream lexer)

variable {lexer : Lexer} {α : Type}

namespace Parse

/-- Reading tokens is a parsing operation. -/
def ofPull (x : Pull lexer α) : Parse lexer α := fun s =>
  match x s with
  | .ok a s => .ok a s
  | .error e s => .error (.error (.reading e)) s

def peek : Parse lexer (Option Token) := ofPull Stream.peek

def next : Parse lexer (Option Token) := ofPull Stream.next

def atEnd : Parse lexer Bool := ofPull Stream.atEnd

def position : Parse lexer Position := ofPull Stream.position

/-- Ends the parse. -/
def refuse (e : ParseError) : Parse lexer α := throw (.error e)

def ofExcept : Except ParseError α → Parse lexer α
  | .ok a => pure a
  | .error e => refuse e

def record (e : Event) : Parse lexer Unit := modify (·.record e)

/-- Runs one level deeper. -/
def deeper (x : Parse lexer α) : Parse lexer α := fun s =>
  match x { s with depth := s.depth + 1 } with
  | .ok a s => .ok a { s with depth := s.depth - 1 }
  | .error e s => .error e { s with depth := s.depth - 1 }

/-- The error that reports a failure: its message where it has one, and otherwise the token that
stands next. -/
def complaint (o : Outcome) : Parse lexer ParseError := do
  match o.failure? with
  | some ⟨some message, position, _⟩ => return .mismatch position message
  | _ =>
    let position ← Parse.position
    match ← Parse.peek with
    | some token => return .mismatch position ("Unexpected " ++ token.shown)
    | none => return .mismatch position "Unexpected end of input"

end Parse

/-! ## Attempts -/

namespace Outcome

/-- A match as the segment around it gives it: under the segment's key and mode, and with the span
of the run, from `start` to the end of its last token. `began` and `came` are the offsets before
and behind it. -/
def settleMatch (o : Outcome) (data : Option Value) (options : Options) (span : Span)
    (began came : Nat) : Outcome where
  verdict := .matched (data.map (located span))
  key := options.key.or o.key
  nesting := if options.nesting = .inherit then o.nesting else options.nesting
  progress := came - began

/-- A failure with the furthest offset that its attempt came to. -/
def settleFailure (o : Outcome) (f : Failure) (began came : Nat) : Outcome :=
  let reached := max f.reached came
  { o with verdict := .failed { f with reached := reached }, progress := reached - began }

end Outcome

/-- Runs the body of a segment. What is no match leaves the stream where it was. -/
def attempt (options : Options) (body : Parse lexer Outcome) : Parse lexer Outcome := do
  let start ← Parse.position
  let label := options.label.getD "<segment>"
  Parse.record (.entered label (← get).depth start)
  fun before =>
    match body before with
    | .error e behind => .error e (behind.returnTo before.checkpoint)
    | .ok o behind =>
      match o.verdict with
      | .matched data =>
        let span := ⟨start, start.latest behind.lastEnd⟩
        .ok (o.settleMatch data options span before.offset behind.offset) behind
      | .failed f =>
        let o := o.settleFailure f before.offset behind.offset
        .ok o ((behind.returnTo before.checkpoint).record
          (.failed label before.depth o.progress f.message))

end Descent
