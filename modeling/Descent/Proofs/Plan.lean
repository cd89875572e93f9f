import Descent.Proofs.Balance

/-!
# Bodies as plans

A `Plan` describes what the body of a shape does as a tree of requests and of what follows on the
answers, as a script does; but a plan is not told of errors, and no plan goes on behind one.
`Shape.plan` is the plan of each shape, and `go_plan` says that following it does what the body
does. What a run comes by on its way can not be asked of an operation, which is a function; it can
be told from a plan.

* `Plan.go`: follows a plan.
* `go_elementsUntilEnd`, `go_elementsUntil`, `go_separatedElements`: the plans of repetitions go on
  with any plan for their results.
* `go_expressionFrom`: rows of operators.
* `go_plan`: the bodies of all shapes.
-/
namespace Descent

open Descent.Stream

variable {lexer : Lexer}

/-- What a body asks for, step by step. -/
inductive Plan (lexer : Lexer) where
  | done (o : Outcome)
  /-- The body of a shape that has no parts. -/
  | single (shape : Shape)
  | script (request : Script) (parts : List Segment)
  | stop (e : Stop)
  /-- Ends the parse with a report of the failure. -/
  | complain (o : Outcome)
  | peek (answer : Option Token → Plan lexer)
  | position (answer : Position → Plan lexer)
  | observe (answer : Stream lexer → Plan lexer)
  | call (s : Segment) (answer : Outcome → Plan lexer)
  /-- Takes the next token and what stands to its right. If that gives no match, then the token is
  put back. -/
  | taking (missing : Plan lexer) (right : Token → Plan lexer)
    (answer : Token → Outcome → Plan lexer)

namespace Plan

/-- Follows a plan, where the segments in it run as `run` says. -/
def go (g : Grammar) (run : Runner lexer) : Plan lexer → Parse lexer Outcome
  | done o => pure o
  | single shape => shape.body g run
  | script request parts => request.run g.maxDepth (parts.map run) []
  | stop e => throw e
  | complain o => do Parse.refuse (← Parse.complaint o)
  | peek answer => do (answer (← Parse.peek)).go g run
  | position answer => do (answer (← Parse.position)).go g run
  | observe answer => do (answer (← get)).go g run
  | call s answer => do (answer (← run s)).go g run
  | taking missing right answer => do
    let before := (← get).checkpoint
    match ← Parse.next with
    | none => missing.go g run
    | some token =>
      let o ← (right token).go g run
      if o.isMatch then (answer token o).go g run
      else
        modify (·.returnTo before)
        return o

section

variable (g : Grammar) (run : Runner lexer)

@[simp] theorem go_done (o : Outcome) : (done o).go g run = pure o := rfl

@[simp] theorem go_stop (e : Stop) : (stop e).go g run = throw e := rfl

@[simp] theorem go_complain (o : Outcome) :
    (complain o).go g run = Parse.complaint o >>= Parse.refuse := rfl

@[simp] theorem go_peek (answer : Option Token → Plan lexer) :
    (peek answer).go g run = Parse.peek >>= fun t => (answer t).go g run := rfl

@[simp] theorem go_position (answer : Position → Plan lexer) :
    (position answer).go g run = Parse.position >>= fun p => (answer p).go g run := rfl

@[simp] theorem go_observe (answer : Stream lexer → Plan lexer) :
    (observe answer).go g run = get >>= fun s => (answer s).go g run := rfl

@[simp] theorem go_call (s : Segment) (answer : Outcome → Plan lexer) :
    (call s answer).go g run = run s >>= fun o => (answer o).go g run := rfl

@[simp] theorem go_taking (missing : Plan lexer) (right : Token → Plan lexer)
    (answer : Token → Outcome → Plan lexer) :
    (taking missing right answer).go g run = (do
      let before ← get
      match ← Parse.next with
      | none => missing.go g run
      | some token =>
        let o ← (right token).go g run
        if o.isMatch then (answer token o).go g run
        else
          modify (·.returnTo before.checkpoint)
          return o) := by
  rw [go]

end

/-! ## Repetitions -/

def required (element : Segment) (answer : Outcome → Plan lexer) : Plan lexer :=
  .call element fun o => if o.isMatch then answer o else .complain o

def requiredStep (element : Segment) (answer : Outcome → Plan lexer) : Plan lexer :=
  .position fun start => required element fun o =>
    if o.progress = 0 then
      .stop (.error (.mismatch start "Repeated rule matched without consuming input"))
    else answer o

def elementsUntilEnd (element : Segment) : Nat → (List Value → Plan lexer) → Plan lexer
  | 0, _ => .stop .endless
  | fuel + 1, answer => .peek fun found =>
    if found.isNone then answer []
    else requiredStep element fun o =>
      elementsUntilEnd element fuel fun items => answer (o.data?.toList ++ items)

def elementsUntil (terminator element : Segment) :
    Nat → (List Value → Plan lexer) → Plan lexer
  | 0, _ => .stop .endless
  | fuel + 1, answer => .call terminator fun ended =>
    if ended.isMatch then answer []
    else .peek fun found =>
      if found.isNone then answer []
      else requiredStep element fun o =>
        elementsUntil terminator element fuel fun items => answer (o.data?.toList ++ items)

def separatedElements (closing separator element : Segment) :
    Nat → (List Value × Outcome → Plan lexer) → Plan lexer
  | 0, _ => .stop .endless
  | fuel + 1, answer => required element fun o =>
    .call separator fun found =>
      if found.isMatch then
        separatedElements closing separator element fuel fun (items, closed) =>
          answer (o.data?.toList ++ items, closed)
      else .call closing fun closed => answer (o.data?.toList, closed)

def steps (answer : Nat → Plan lexer) : Plan lexer := .observe fun s => answer (s.unread + 2)

def delimited (opening closing separator element : Segment) : Plan lexer :=
  .call opening fun opened =>
    if !opened.isMatch then .done opened
    else .call closing fun closed =>
      if closed.isMatch then .done (.withData (.list []))
      else steps fun fuel =>
        separatedElements closing separator element fuel fun (items, closed) =>
          if closed.isMatch then .done (.withData (.list items)) else .done closed

/-! ## Operators -/

def operatorAbove? (tiers : List Tier) (floor : Option Nat)
    (answer : Option (Nat × Associativity) → Plan lexer) : Plan lexer :=
  .peek fun
    | none => answer none
    | some token =>
      match tierOf? tiers token with
      | none => answer none
      | some tier =>
        if waits floor tier then answer none
        else answer (tiers[tier]?.map fun t => (tier, t.associativity))

def operandThen (operand : Segment) (more : Position → Value → Plan lexer) : Plan lexer :=
  .position fun start => .call operand fun first =>
    if first.isMatch then more start (first.data?.getD .null) else .done first

def expressionFrom (operand : Segment) (tiers : List Tier) :
    Nat → Option Nat → Position → Value → Plan lexer
  | 0, _, _, _ => .stop .endless
  | fuel + 1, floor, start, left => operatorAbove? tiers floor fun
    | none => .done (.withData left)
    | some (tier, associativity) =>
      .taking (.done (.withData left))
        (fun _ => operandThen operand
          (expressionFrom operand tiers fuel (floorBehind tier associativity)))
        fun token right => .observe fun s =>
          expressionFrom operand tiers fuel floor start
            (operation ⟨start, s.lastEnd⟩ token.value left (right.data?.getD .null))

def binary (operand : Segment) (tiers : List Tier) : Plan lexer :=
  operandThen operand fun start left => .observe fun s =>
    expressionFrom operand tiers (s.unread + 1) none start left

/-! ## Choices and sequences -/

def choice (best : Option Outcome) : List Segment → Plan lexer
  | [] =>
    match best with
    | some o => .done o
    | none => .single (.choice [])
  | s :: rest => .call s fun o => if o.isMatch then .done o else choice (some (further best o)) rest

def between (opening content closing : Segment) : Plan lexer :=
  .call opening fun opened =>
    if !opened.isMatch then .done opened
    else .call content fun inner =>
      if !inner.isMatch then .done inner
      else .call closing fun closed =>
        if !closed.isMatch then .done closed else .done (.ofData? inner.data?)

/-- Segments in a row, with what the outcome is made of at the end. -/
def gather (policy : Nesting) (finish : Draft → Outcome) (d : Draft) :
    List Segment → Plan lexer
  | [] => .done (finish d)
  | s :: rest => .call s fun o =>
    if o.isMatch then .observe fun stream =>
      match d.add o policy stream.lastEnd with
      | .ok d => gather policy finish d rest
      | .error e => .stop (.error e)
    else .done o

end Plan

/-- The plan of what a shape does. -/
def Shape.plan (g : Grammar) : Shape → Plan lexer
  | .nothing => .done .success
  | .reference name =>
    match g.find? name with
    | some rule => .call rule.toSegment .done
    | none => .stop (.error (.unknownRule name))
  | .optional s => .call s fun o => if o.isMatch then .done o else .done .success
  | .choice alternatives => .choice none alternatives
  | .delimited opening closing separator element => .delimited opening closing separator element
  | .between opening content closing => .between opening content closing
  | .untilMatch terminator element =>
    .steps fun fuel => .elementsUntil terminator element fuel fun items =>
      .done (.withData (.list items))
  | .untilEnd element =>
    .steps fun fuel => .elementsUntilEnd element fuel fun items => .done (.withData (.list items))
  | .binary operand tiers => .binary operand tiers
  | .inline rule =>
    .gather rule.nesting (fun d => (Outcome.ofData? (d.close rule.kind)).mapData rule.convert) {}
      rule.segments
  | .script request parts => .script request parts
  | shape => .single shape

/-! ## Following a plan -/

namespace Plan

variable {g : Grammar} {run : Runner lexer}

theorem atEnd_eq_peek : (Parse.atEnd : Parse lexer Bool) = do return (← Parse.peek).isNone := by
  funext s
  simp only [Parse.atEnd, Parse.ofPull, atEnd_eq, Parse.peek, bind_apply]
  cases Stream.peek s <;> rfl

theorem refuse_bind {α β : Type} (e : ParseError) (f : α → Parse lexer β) :
    Parse.refuse e >>= f = Parse.refuse e := rfl

theorem go_required (element : Segment) (answer : Outcome → Plan lexer) :
    (required element answer).go g run =
      Descent.required (run element) >>= fun o => (answer o).go g run := by
  simp only [required, go_call, Descent.required, bind_assoc]
  refine congrArg _ (funext fun o => ?_)
  split
  · rw [pure_bind]
  · simp only [go_complain, bind_assoc, refuse_bind]

theorem go_requiredStep (element : Segment) (answer : Outcome → Plan lexer) :
    (requiredStep element answer).go g run =
      Descent.requiredStep (run element) >>= fun o => (answer o).go g run := by
  simp only [requiredStep, go_position, go_required, Descent.requiredStep, bind_assoc]
  refine congrArg _ (funext fun start => congrArg _ (funext fun o => ?_))
  split
  · rfl
  · rw [pure_bind]

theorem go_elementsUntilEnd (element : Segment) (fuel : Nat) (answer : List Value → Plan lexer) :
    (elementsUntilEnd element fuel answer).go g run =
      Descent.elementsUntilEnd (run element) fuel >>= fun items => (answer items).go g run := by
  induction fuel generalizing answer with
  | zero => rfl
  | succ fuel ih =>
    simp only [elementsUntilEnd, go_peek, Descent.elementsUntilEnd, atEnd_eq_peek, bind_assoc,
      pure_bind]
    refine congrArg _ (funext fun found => ?_)
    split
    · rw [pure_bind]
    · simp only [go_requiredStep, ih, bind_assoc, pure_bind]

theorem go_elementsUntil (terminator element : Segment) (fuel : Nat)
    (answer : List Value → Plan lexer) :
    (elementsUntil terminator element fuel answer).go g run =
      Descent.elementsUntil (run terminator) (run element) fuel >>= fun items =>
        (answer items).go g run := by
  induction fuel generalizing answer with
  | zero => rfl
  | succ fuel ih =>
    simp only [elementsUntil, go_call, Descent.elementsUntil, atEnd_eq_peek, bind_assoc]
    refine congrArg _ (funext fun ended => ?_)
    split
    · rw [pure_bind]
    · simp only [go_peek, bind_assoc, pure_bind]
      refine congrArg _ (funext fun found => ?_)
      split
      · rw [pure_bind]
      · simp only [go_requiredStep, ih, bind_assoc, pure_bind]

theorem go_separatedElements (closing separator element : Segment) (fuel : Nat)
    (answer : List Value × Outcome → Plan lexer) :
    (separatedElements closing separator element fuel answer).go g run =
      Descent.separatedElements (run closing) (run separator) (run element) fuel >>= fun found =>
        (answer found).go g run := by
  induction fuel generalizing answer with
  | zero => rfl
  | succ fuel ih =>
    simp only [separatedElements, go_required, go_call, Descent.separatedElements, bind_assoc]
    refine congrArg _ (funext fun o => congrArg _ (funext fun found => ?_))
    split
    · simp only [ih, bind_assoc, pure_bind]
    · simp only [go_call, bind_assoc, pure_bind]

theorem go_steps (answer : Nat → Plan lexer) :
    (steps answer).go g run = Descent.steps >>= fun fuel => (answer fuel).go g run := by
  simp only [steps, go_observe, Descent.steps, bind_assoc, pure_bind]

theorem go_delimited (opening closing separator element : Segment) :
    (delimited opening closing separator element).go g run =
      delimitedBody (run opening) (run closing) (run separator) (run element) := by
  simp only [delimited, go_call, delimitedBody]
  refine congrArg _ (funext fun opened => ?_)
  split
  · rfl
  · simp only [go_call]
    refine congrArg _ (funext fun closed => ?_)
    split
    · rfl
    · rw [go_steps]
      refine congrArg _ (funext fun fuel => ?_)
      rw [go_separatedElements]
      refine congrArg _ (funext fun (items, closed) => ?_)
      simp only
      split <;> rfl

/-! ### Operators -/

theorem go_operatorAbove? (tiers : List Tier) (floor : Option Nat)
    (answer : Option (Nat × Associativity) → Plan lexer) :
    (operatorAbove? tiers floor answer).go g run =
      Descent.operatorAbove? tiers floor >>= fun found => (answer found).go g run := by
  simp only [operatorAbove?, go_peek, Descent.operatorAbove?, bind_assoc]
  refine congrArg _ (funext fun found => ?_)
  cases found with
  | none => simp only [pure_bind]
  | some token =>
    cases ht : tierOf? tiers token with
    | none => simp only [ht, pure_bind]
    | some tier =>
      simp only [ht]
      split <;> rw [pure_bind]

theorem go_operandThen (operand : Segment) (more : Position → Value → Plan lexer) :
    (operandThen operand more).go g run =
      Descent.operandThen (run operand) fun start left => (more start left).go g run := by
  simp only [operandThen, go_position, go_call, Descent.operandThen]
  refine congrArg _ (funext fun start => congrArg _ (funext fun first => ?_))
  split <;> rfl

theorem go_expressionFrom (operand : Segment) (tiers : List Tier) (fuel : Nat)
    (floor : Option Nat) (start : Position) (left : Value) :
    (expressionFrom operand tiers fuel floor start left).go g run =
      Descent.expressionFrom (run operand) tiers fuel floor start left := by
  induction fuel generalizing floor start left with
  | zero => rfl
  | succ fuel ih =>
    rw [expressionFrom, go_operatorAbove?, Descent.expressionFrom]
    refine congrArg _ (funext fun operator => ?_)
    cases operator with
    | none => rfl
    | some operator =>
      rw [go_taking]
      refine congrArg (get >>= ·) (funext fun before =>
        congrArg (Parse.next >>= ·) (funext fun token => ?_))
      cases token with
      | none => rfl
      | some token => simp only [go_operandThen, go_observe, ih]

theorem go_binary (operand : Segment) (tiers : List Tier) :
    (binary operand tiers).go g run = binaryBody (run operand) tiers := by
  simp only [binary, go_operandThen, go_observe, go_expressionFrom, binaryBody]

/-! ### Choices and sequences -/

theorem go_choice (best : Option Outcome) (alternatives : List Segment) :
    (choice best alternatives).go g run = choiceBody run best alternatives := by
  induction alternatives generalizing best with
  | nil => cases best <;> rfl
  | cons s rest ih =>
    simp only [choice, go_call, choiceBody]
    refine congrArg _ (funext fun o => ?_)
    split
    · rfl
    · exact ih _

theorem go_between (opening content closing : Segment) :
    (between opening content closing).go g run = betweenBody run opening content closing := by
  simp only [between, go_call, betweenBody]
  refine congrArg _ (funext fun opened => ?_)
  split
  · rfl
  · simp only [go_call]
    refine congrArg _ (funext fun inner => ?_)
    split
    · rfl
    · simp only [go_call]
      refine congrArg _ (funext fun closed => ?_)
      split <;> rfl

theorem go_gather (policy : Nesting) (finish : Draft → Outcome) (d : Draft)
    (segments : List Segment) :
    (gather policy finish d segments).go g run = (do
      match ← Descent.gather run policy d segments with
      | .ok d => return finish d
      | .error o => return o) := by
  induction segments generalizing d with
  | nil => rfl
  | cons s rest ih =>
    simp only [gather, go_call, Descent.gather, bind_assoc]
    refine congrArg _ (funext fun o => ?_)
    split
    · simp only [go_observe, bind_assoc]
      refine congrArg _ (funext fun stream => ?_)
      cases d.add o policy stream.lastEnd with
      | ok d => exact ih d
      | error e => rfl
    · rfl

end Plan

/-- Following the plan of a shape does what the shape does. -/
theorem go_plan (g : Grammar) (run : Runner lexer) (shape : Shape) :
    (shape.plan g).go g run = shape.body g run := by
  cases shape with
  | reference name =>
    cases hfind : g.find? name with
    | some rule => simp only [Shape.plan, Shape.body, hfind, Plan.go_call, Plan.go_done,
      bind_pure]
    | none => simp only [Shape.plan, Shape.body, hfind, Plan.go_stop, Parse.refuse]
  | optional s =>
    simp only [Shape.plan, Plan.go_call, Shape.body, optionalBody]
    refine congrArg _ (funext fun o => ?_)
    split <;> rfl
  | choice alternatives => exact Plan.go_choice none alternatives
  | delimited opening closing separator element => exact Plan.go_delimited _ _ _ _
  | between opening content closing => exact Plan.go_between _ _ _
  | untilMatch terminator element =>
    simp only [Shape.plan, Plan.go_steps, Plan.go_elementsUntil, Plan.go_done, Shape.body,
      untilMatchBody]
  | untilEnd element =>
    simp only [Shape.plan, Plan.go_steps, Plan.go_elementsUntilEnd, Plan.go_done, Shape.body,
      untilEndBody]
  | binary operand tiers => exact Plan.go_binary operand tiers
  | inline rule => exact Plan.go_gather _ _ _ _
  | _ => rfl

end Descent
