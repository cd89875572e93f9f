import Descent.Grammar.Basic
import Descent.Run.Precedence
import Descent.Run.Repetition
import Descent.Run.Script

/-!
# Running segments

`Shape.body` says what each shape does, given how the segments inside of it run; `Segment.runWithin`
closes the circle. Every segment, rule and reference goes one level deeper, and the number of levels
left is what the recursion descends on, so that no nesting of rules runs for ever.

* `runWithin_zero`: without a level left a segment is too deep, whatever it is.
* `runWithin_succ`: with a level left its body is attempted one level deeper.
* `guarded`: the same for any operation, and so for the row of segments that a rule is.
* `run_eq_guarded`, `Rule.run_eq`: segments and rules run under the one guard.
-/
namespace Descent

variable {lexer : Lexer}

/-- A way to run segments. -/
abbrev Runner (lexer : Lexer) := Segment → Parse lexer Outcome

/-! ## Single tokens -/

/-- What stands in place of what was expected. -/
def butFound : Option Token → String
  | some token => " but got " ++ token.shown
  | none => " but reached end of input"

/-- Hands out the next token if it is accepted, and builds the outcome from it. -/
def tokenBody (accepts : Token → Bool) (outcome : Token → Outcome) (expected : String) :
    Parse lexer Outcome := do
  let start ← Parse.position
  let found ← Parse.peek
  match found with
  | some token =>
    if accepts token then
      let _ ← Parse.next
      return outcome token
    else return .failure start ("Expected " ++ expected ++ butFound found)
  | none => return .failure start ("Expected " ++ expected ++ butFound none)

/-- The node of a single token. -/
def leafNode (t : Token) : Value :=
  let n : Node := { kind := some t.kind, span := some t.span }
  .node (n.insert valueName t.value.toValue)

/-- Hands out the next token if it is the given one. -/
def possiblyBody (kind text : String) : Parse lexer Outcome := do
  if (← Parse.peek).any (·.is kind text) then
    let _ ← Parse.next
  return .success

/-! ## Choices and sequences -/

/-- The failure that came further, the earlier one if they came equally far. -/
def further (best : Option Outcome) (o : Outcome) : Outcome :=
  match best with
  | some b => if b.progress < o.progress then o else b
  | none => o

theorem isMatch_further {best : Option Outcome} {o : Outcome}
    (hbest : ∀ b, best = some b → b.isMatch = false) (ho : o.isMatch = false) :
    (further best o).isMatch = false := by
  unfold further
  split
  · split
    · exact ho
    · exact hbest _ rfl
  · exact ho

/-- The first match among the alternatives, or else the failure that came furthest. -/
def choiceBody (run : Runner lexer) (best : Option Outcome) : List Segment → Parse lexer Outcome
  | [] =>
    match best with
    | some o => return o
    | none => return .failure (← Parse.position) "No alternatives to choose from"
  | s :: rest => do
    let o ← run s
    if o.isMatch then return o else choiceBody run (some (further best o)) rest

def optionalBody (run : Runner lexer) (s : Segment) : Parse lexer Outcome := do
  let o ← run s
  if o.isMatch then return o else return .success

/-- Three segments in a row, for the data of the middle one. -/
def betweenBody (run : Runner lexer) (opening content closing : Segment) :
    Parse lexer Outcome := do
  let opened ← run opening
  if !opened.isMatch then return opened
  else
    let inner ← run content
    if !inner.isMatch then return inner
    else
      let closed ← run closing
      if !closed.isMatch then return closed else return .ofData? inner.data?

/-- Runs segments in a row and puts their outcomes together; ends with the first that fails. -/
def gather (run : Runner lexer) (policy : Nesting) (d : Draft) :
    List Segment → Parse lexer (Except Outcome Draft)
  | [] => return .ok d
  | s :: rest => do
    let o ← run s
    if o.isMatch then
      let d ← Parse.ofExcept (d.add o policy (← get).lastEnd)
      gather run policy d rest
    else return .error o

def ruleBody (run : Runner lexer) (r : Rule) : Parse lexer Outcome := do
  match ← gather run r.nesting {} r.segments with
  | .ok d => return (Outcome.ofData? (d.close r.kind)).mapData r.convert
  | .error o => return o

/-! ## Segments -/

/-- What a shape does, where the segments in it run as `run` says. -/
def Shape.body (grammar : Grammar) (run : Runner lexer) : Shape → Parse lexer Outcome
  | .exact kind text => tokenBody (·.is kind text) (fun _ => .success) (kind ++ " " ++ text)
  | .ofKind kind => tokenBody (·.kind == kind) (fun t => .withData t.value.toValue) kind
  | .leaf kind => tokenBody (·.kind == kind) (fun t => .withData (leafNode t)) kind
  | .possibly kind text => possiblyBody kind text
  | .nothing => return .success
  | .fail message => return .failure (← Parse.position) message
  | .reference name =>
    match grammar.find? name with
    | some rule => run rule.toSegment
    | none => Parse.refuse (.unknownRule name)
  | .optional s => optionalBody run s
  | .choice alternatives => choiceBody run none alternatives
  | .delimited opening closing separator element =>
    delimitedBody (run opening) (run closing) (run separator) (run element)
  | .between opening content closing => betweenBody run opening content closing
  | .untilMatch terminator element => untilMatchBody (run terminator) (run element)
  | .untilEnd element => untilEndBody (run element)
  | .binary operand tiers => binaryBody (run operand) tiers
  | .inline rule => ruleBody run rule
  | .script request parts => request.run grammar.maxDepth (parts.map run) []

/-- Refuses to go deeper. -/
def tooDeep (limit : Nat) : Parse lexer Outcome := do
  Parse.refuse (.tooDeep (← Parse.position) limit)

namespace Segment

/-- Runs a segment with this number of levels left. -/
def runWithin (grammar : Grammar) : Nat → Runner lexer
  | 0, _ => Parse.deeper (tooDeep grammar.maxDepth)
  | levels + 1, s =>
    Parse.deeper (attempt s.options (s.shape.body grammar (runWithin grammar levels)))

theorem runWithin_zero (grammar : Grammar) (s : Segment) :
    (runWithin grammar 0 s : Parse lexer Outcome) = Parse.deeper (tooDeep grammar.maxDepth) := rfl

theorem runWithin_succ (grammar : Grammar) (levels : Nat) (s : Segment) :
    (runWithin grammar (levels + 1) s : Parse lexer Outcome) =
      Parse.deeper (attempt s.options (s.shape.body grammar (runWithin grammar levels))) := rfl

/-- Runs a segment on a stream, under the depth limit of the grammar. -/
def run (grammar : Grammar) (s : Segment) : Parse lexer Outcome := fun stream =>
  runWithin grammar (grammar.maxDepth - stream.depth) s stream

end Segment

/-! ## Guarded bodies -/

/-- Runs any operation the way a segment runs its body: one level deeper, if the depth limit allows
it, and undone if it gives no match. -/
def guarded (grammar : Grammar) (options : Options) (body : Parse lexer Outcome) :
    Parse lexer Outcome := fun s =>
  if s.depth < grammar.maxDepth then Parse.deeper (attempt options body) s
  else Parse.deeper (tooDeep grammar.maxDepth) s

/-- The runs inside of a segment that begins at the depth of `s`. -/
def innerRun (grammar : Grammar) (s : Stream lexer) : Runner lexer :=
  Segment.runWithin grammar (grammar.maxDepth - (s.depth + 1))

theorem run_eq_guarded (grammar : Grammar) (segment : Segment) (s : Stream lexer) :
    segment.run grammar s =
      guarded grammar segment.options (segment.shape.body grammar (innerRun grammar s)) s := by
  unfold Segment.run guarded innerRun
  split
  · next h =>
    rw [show grammar.maxDepth - s.depth = grammar.maxDepth - (s.depth + 1) + 1 by omega,
      Segment.runWithin_succ]
  · next h => rw [show grammar.maxDepth - s.depth = 0 by omega, Segment.runWithin_zero]

/-- Runs a rule on a stream, with its name for a label. -/
def Rule.run (grammar : Grammar) (r : Rule) : Parse lexer Outcome := fun s =>
  guarded grammar { label := some r.name } (ruleBody (innerRun grammar s) r) s

/-- A rule runs as the segment that it makes. -/
theorem Rule.run_eq (grammar : Grammar) (r : Rule) :
    (r.run grammar : Parse lexer Outcome) = r.toSegment.run grammar :=
  funext fun s => (run_eq_guarded grammar r.toSegment s).symm

end Descent
