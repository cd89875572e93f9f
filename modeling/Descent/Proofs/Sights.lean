import Descent.Proofs.Ending
import Descent.Proofs.Plan

/-!
# What a run comes by

The log of a run has a `Sight` for every state that the stream comes to, for every shape that does
not match in itself, and for every time that what was read is taken back. It covers the runs inside:
those of alternatives that lose, of parts that are left out, and of operands behind an operator that
is put back.

* `Plan.sights`, `Script.sights`: the logs of plans and scripts.
* `Segment.sights`: the log of a run.
* `Segment.sightsWithin_succ`: it is the log of the plan, followed by what is settled at its end.
-/
namespace Descent

open Descent.Stream

variable {lexer : Lexer} {α : Type}

inductive Sight (lexer : Lexer) where
  /-- The stream came to this state. -/
  | stood (s : Stream lexer)
  /-- The shape did not match, and none of its parts is to blame. The stream stood here. -/
  | missed (origin : Shape) (s : Stream lexer) (f : Failure)
  /-- What had been read up to this offset was taken back. -/
  | dropped (reached : Nat)

/-- What is seen behind an operation. -/
def behind (r : EStateM.Result Stop (Stream lexer) α)
    (more : α → Stream lexer → List (Sight lexer)) : List (Sight lexer) :=
  match r with
  | .ok a s => more a s
  | .error _ _ => []

/-- The state that an operation ends in, and what is seen behind it. -/
def followedBy (r : EStateM.Result Stop (Stream lexer) α)
    (more : α → Stream lexer → List (Sight lexer)) : List (Sight lexer) :=
  .stood (stateOf r) :: behind r more

/-- How a shape ends that has no parts. -/
def missedIn (origin : Shape) (r : EStateM.Result Stop (Stream lexer) Outcome) :
    List (Sight lexer) :=
  followedBy r fun o s =>
    match o.verdict with
    | .matched _ => []
    | .failed f => [.missed origin s f]

/-- How an attempt ends. Without a match, what it has read is dropped. -/
def settledIn (r : EStateM.Result Stop (Stream lexer) Outcome) : List (Sight lexer) :=
  followedBy r fun o _ =>
    match o.verdict with
    | .matched _ => []
    | .failed f => [.dropped f.reached]

/-- The log of a script that has these runs at hand, of which `watches` has the logs. -/
def Script.sights (depthLimit : Nat) (runs : List (Parse lexer Outcome))
    (watches : List (Stream lexer → List (Sight lexer))) (saved : List Checkpoint) :
    Script → Stream lexer → List (Sight lexer)
  | finish _, _ | abort _, _ => []
  | peek answer, s =>
    followedBy (answerOf Stream.peek s) fun a s => (answer a).sights depthLimit runs watches saved s
  | next answer, s =>
    followedBy (answerOf Stream.next s) fun a s => (answer a).sights depthLimit runs watches saved s
  | position answer, s =>
    followedBy (answerOf Stream.position s) fun a s =>
      (answer a).sights depthLimit runs watches saved s
  | offset answer, s => (answer s.offset).sights depthLimit runs watches saved s
  | lastEnd answer, s => (answer s.lastEnd).sights depthLimit runs watches saved s
  | depth answer, s => (answer s.depth).sights depthLimit runs watches saved s
  | text answer, s => (answer s.text).sights depthLimit runs watches saved s
  | save following, s => following.sights depthLimit runs watches (s.checkpoint :: saved) s
  | restore slot following, s =>
    match saved[slot]? with
    | some c =>
      .stood s :: .dropped s.offset :: .stood (s.returnTo c) ::
        following.sights depthLimit runs watches saved (s.returnTo c)
    | none => following.sights depthLimit runs watches saved s
  | unmoved slot answer, s =>
    (answer (saved[slot]? = some s.checkpoint)).sights depthLimit runs watches saved s
  | call part answer, s =>
    (watches.getD part fun _ => []) s ++
      behind (outcomeOf (runs.getD part (pure .success)) s) fun a s =>
        (answer a).sights depthLimit runs watches saved s
  | limit answer, s => (answer depthLimit).sights depthLimit runs watches saved s

/-- The log of a plan, where the segments in it run as `run` says and `watch` has their logs. -/
def Plan.sights (g : Grammar) (run : Runner lexer)
    (watch : Segment → Stream lexer → List (Sight lexer)) :
    Plan lexer → Stream lexer → List (Sight lexer)
  | done _, _ | stop _, _ => []
  | single shape, s => .stood (stateOf (Stream.peek s)) :: missedIn shape (shape.body g run s)
  | script request parts, s =>
    request.sights g.maxDepth (parts.map run) (parts.map watch) [] s ++
      missedIn (.script request parts) (request.run g.maxDepth (parts.map run) [] s)
  | complain o, s => followedBy (Parse.complaint o s) fun _ _ => []
  | peek answer, s => followedBy (Parse.peek s) fun a s => (answer a).sights g run watch s
  | position answer, s =>
    followedBy (Parse.position s) fun a s => (answer a).sights g run watch s
  | observe answer, s => (answer s).sights g run watch s
  | call t answer, s =>
    watch t s ++ behind (run t s) fun o s => (answer o).sights g run watch s
  | taking missing right answer, s =>
    followedBy (Parse.next s) fun found seen =>
      match found with
      | none => missing.sights g run watch seen
      | some token =>
        (right token).sights g run watch seen ++
          behind ((right token).go g run seen) fun o t =>
            if o.isMatch then (answer token o).sights g run watch t
            else settledIn (.ok o (t.returnTo s.checkpoint))

namespace Segment

/-- The state in which the body of a segment begins. -/
def opened (p : Segment) (start : Position) (s : Stream lexer) : Stream lexer :=
  s.record (.entered (p.options.label.getD "<segment>") s.depth start)

/-- The log of a run with this number of levels left. -/
def sightsWithin (g : Grammar) : Nat → Segment → Stream lexer → List (Sight lexer)
  | 0, _, s => followedBy (Parse.position (s.atDepth (s.depth + 1))) fun _ _ => []
  | levels + 1, p, s =>
    (followedBy (Parse.position (s.atDepth (s.depth + 1))) fun start seen =>
      (p.shape.plan g).sights g (runWithin g levels) (sightsWithin g levels)
        (p.opened start seen)) ++
    settledIn (p.runWithin g (levels + 1) s)

/-- The log of a run under the depth limit of the grammar. -/
def sights (g : Grammar) (p : Segment) (s : Stream lexer) : List (Sight lexer) :=
  p.sightsWithin g (g.maxDepth - s.depth) s

theorem sightsWithin_succ (g : Grammar) (levels : Nat) (p : Segment) (s : Stream lexer) :
    p.sightsWithin g (levels + 1) s =
      (followedBy (Parse.position (s.atDepth (s.depth + 1))) fun start seen =>
        (p.shape.plan g).sights g (runWithin g levels) (sightsWithin g levels)
          (p.opened start seen)) ++
      settledIn (p.runWithin g (levels + 1) s) := rfl

end Segment

end Descent
