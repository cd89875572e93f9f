import Descent.Proofs.DepthLimit
import Descent.Proofs.Termination

/-!
# What would go on for ever

A parse that would nest without bound ends too deep, and one that would repeat without bound ends
with the error of a repetition that reads nothing. To say what would happen without that error,
`elementsFreely` runs the steps of a repetition whatever they read, up to a bound on their number.

* `follows_runFreely`: a run against the one with free repetitions.
* `parse_ends`: every parse ends, and how it ends where something has no bound.
-/
namespace Descent

open Descent.Stream

variable {lexer : Lexer} {text : String} {α : Type}

/-! ## Free repetitions -/

/-- A step of a repetition, whatever it reads. -/
def stepFreely (element : Parse lexer Outcome) : Parse lexer Outcome := do
  let _ ← Parse.position
  required element

/-- The data of the elements up to where `stop` says so. -/
def elementsFreely (stop : Parse lexer Bool) (element : Parse lexer Outcome) :
    Nat → Parse lexer (List Value)
  | 0 => throw .endless
  | bound + 1 => do
    if ← stop then return []
    else
      let o ← stepFreely element
      return o.data?.toList ++ (← elementsFreely stop element bound)

/-- Is here the terminator or the end of the text? -/
def stopAt (terminator : Parse lexer Outcome) : Parse lexer Bool := do
  if (← terminator).isMatch then return true else Parse.atEnd

/-- What a shape does if its repetitions are free. -/
def Shape.bodyFreely (grammar : Grammar) (bound : Nat) (run : Runner lexer) :
    Shape → Parse lexer Outcome
  | .untilMatch terminator element => do
    let items ← elementsFreely (stopAt (run terminator)) (run element) bound
    return .withData (.list items)
  | .untilEnd element => do
    let items ← elementsFreely Parse.atEnd (run element) bound
    return .withData (.list items)
  | shape => shape.body grammar run

/-- Runs a segment with free repetitions and this number of levels left. -/
def Segment.runFreely (grammar : Grammar) (bound : Nat) : Nat → Runner lexer
  | 0, _ => Parse.deeper (tooDeep grammar.maxDepth)
  | levels + 1, s =>
    Parse.deeper (attempt s.options
      (s.shape.bodyFreely grammar bound (runFreely grammar bound levels)))

/-- Runs the root with free repetitions and records an error that ends the parse. -/
def Grammar.runRootFreely (grammar : Grammar) (bound : Nat) (rule : Rule) :
    Parse lexer Outcome := fun s =>
  match rule.toSegment.runFreely grammar bound (grammar.maxDepth - s.depth) s with
  | .ok o s => .ok o s
  | .error (.error e) s => .error (.error e) (s.record (.refused rule.name e))
  | .error .endless s => .error .endless s

/-- Parses from the root rule on with free repetitions. -/
def Grammar.parseFreely (grammar : Grammar) (bound : Nat) (root : String) : Parse lexer Value := do
  match grammar.find? root with
  | none => Parse.refuse (.unknownRule root)
  | some rule =>
    Parse.record (.parsing root)
    let o ← grammar.runRootFreely bound rule
    concluded root o

/-! ## The error of a repetition -/

/-- The reason is that a repetition reads nothing. -/
def Stop.Repeats (e : Stop) : Prop :=
  ∃ p, e = .error (.mismatch p "Repeated rule matched without consuming input")

/-- The reason is that a repetition reads nothing, or has gone on for too many steps. -/
def Stop.GoesOn (e : Stop) : Prop := e = .endless ∨ e.Repeats

/-- The script passes on the error of a repetition that reads nothing. -/
def Script.PassesOn (script : Script) : Prop :=
  script.Forthright (fun e => Stop.GoesOn (.error e)) True

variable {I : Stream lexer → Prop} [Steady I]

theorem follows_stepFreely {x y : Parse lexer Outcome} (h : Follows I Stop.GoesOn x y) :
    Follows I Stop.GoesOn (requiredStep x) (stepFreely y) := by
  refine keeps_position.bind_follows fun start => ?_
  rw [← bind_pure (required y)]
  refine (follows_required h).bind fun o => ?_
  split
  · exact ⟨keeps_refuse _, fun s _ => Or.inr ⟨_, s, rfl, Or.inr ⟨start, rfl⟩⟩⟩
  · exact follows_pure o

theorem follows_elementsFreely_end {x y : Parse lexer Outcome} (h : Follows I Stop.GoesOn x y)
    {fuel bound : Nat} (hle : fuel ≤ bound) :
    Follows I Stop.GoesOn (elementsUntilEnd x fuel) (elementsFreely Parse.atEnd y bound) := by
  induction fuel generalizing bound with
  | zero => exact ⟨keeps_throw _, fun s _ => Or.inr ⟨_, s, rfl, Or.inl rfl⟩⟩
  | succ fuel ih =>
    cases bound with
    | zero => omega
    | succ bound =>
      refine keeps_atEnd.bind_follows fun done => ?_
      split
      · exact follows_pure _
      · exact (follows_stepFreely h).bind fun o => (ih (by omega)).bind fun _ => follows_pure _

theorem elementsFreely_stopAt (terminator element : Parse lexer Outcome) (bound : Nat) :
    elementsFreely (stopAt terminator) element (bound + 1) = (do
      if (← terminator).isMatch then return []
      else if ← Parse.atEnd then return []
      else
        let o ← stepFreely element
        return o.data?.toList ++ (← elementsFreely (stopAt terminator) element bound)) := by
  rw [elementsFreely, stopAt, bind_assoc]
  congr 1
  funext o
  split <;> rfl

theorem follows_elementsFreely_match {t u x y : Parse lexer Outcome}
    (ht : Follows I Stop.GoesOn t u) (h : Follows I Stop.GoesOn x y) {fuel bound : Nat}
    (hle : fuel ≤ bound) :
    Follows I Stop.GoesOn (elementsUntil t x fuel) (elementsFreely (stopAt u) y bound) := by
  induction fuel generalizing bound with
  | zero => exact ⟨keeps_throw _, fun s _ => Or.inr ⟨_, s, rfl, Or.inl rfl⟩⟩
  | succ fuel ih =>
    cases bound with
    | zero => omega
    | succ bound =>
      rw [elementsFreely_stopAt]
      refine ht.bind fun o => ?_
      split
      · exact follows_pure _
      · refine keeps_atEnd.bind_follows fun done => ?_
        split
        · exact follows_pure _
        · exact (follows_stepFreely h).bind fun o => (ih (by omega)).bind fun _ => follows_pure _

/-! ## Runs -/

/-- Behind the number of steps that a loop is given stands nothing that needs another bound. -/
theorem follows_steps_bind {P : Stop → Prop} {f : Nat → Parse lexer α} {y : Parse lexer α}
    {bound : Nat} (hbound : text.toList.length + 2 ≤ bound)
    (hf : ∀ fuel, fuel ≤ bound → Follows (Reachable text) P (f fuel) y) :
    Follows (Reachable text) P (steps >>= f) y := by
  have hfuel {s : Stream lexer} (hs : s.Reachable text) : s.unread + 2 ≤ bound := by
    have := hs.offset_add_unread
    omega
  exact ⟨fun s hs => (hf _ (hfuel hs)).keeps s hs, fun s hs => (hf _ (hfuel hs)).agrees s hs⟩

section

variable {grammar : Grammar} (hg : grammar.Throughout (Shape.ScriptIn Script.PassesOn))
  {bound : Nat} (hbound : text.toList.length + 2 ≤ bound)
include hg hbound

theorem follows_bodyFreely {run run' : Runner lexer}
    (hkeeps : ∀ s, Keeps (Reachable text) (run s))
    (hrun : ∀ s : Segment, s.Throughout (Shape.ScriptIn Script.PassesOn) →
      Follows (Reachable text) Stop.GoesOn (run s) (run' s)) {shape : Shape}
    (hscript : shape.ScriptIn Script.PassesOn)
    (hparts : ∀ p ∈ shape.parts, p.Throughout (Shape.ScriptIn Script.PassesOn)) :
    Follows (Reachable text) Stop.GoesOn (shape.body grammar run)
      (shape.bodyFreely grammar bound run') := by
  have hsame : Follows (Reachable text) Stop.GoesOn (shape.body grammar run)
      (shape.body grammar run') :=
    follows_body hkeeps hrun (fun _ => rfl) (fun _ _ hfind => hg.find? hfind)
      (hscript.mono fun _ h => Script.Forthright.mono h fun _ => rfl) hparts
  cases shape with
  | untilMatch terminator element =>
    simp only [Shape.parts, List.forall_mem_cons] at hparts
    obtain ⟨ht, he, -⟩ := hparts
    exact follows_steps_bind hbound fun fuel hfuel =>
      (follows_elementsFreely_match (hrun _ ht) (hrun _ he) hfuel).bind fun _ => follows_pure _
  | untilEnd element =>
    have he := hparts element (by simp [Shape.parts])
    exact follows_steps_bind hbound fun fuel hfuel =>
      (follows_elementsFreely_end (hrun _ he) hfuel).bind fun _ => follows_pure _
  | exact kind text | ofKind kind | leaf kind | possibly kind text | nothing | fail message
  | reference rule | optional s | choice alternatives
  | delimited opening closing separator element | between opening content closing
  | binary operand tiers | inline rule | script request parts => exact hsame

/-- A run does what it does with free repetitions, unless one of them goes on too long. -/
theorem follows_runFreely (levels : Nat) {s : Segment}
    (hs : s.Throughout (Shape.ScriptIn Script.PassesOn)) :
    Follows (Reachable text) Stop.GoesOn (s.runWithin grammar levels : Parse lexer Outcome)
      (s.runFreely grammar bound levels) := by
  induction levels generalizing s with
  | zero => exact (Segment.keeps_runWithin grammar 0 s).follows
  | succ levels ih =>
    refine follows_deeper (follows_attempt _ ?_)
    exact follows_bodyFreely hg hbound (Segment.keeps_runWithin grammar levels) (fun _ => ih)
      hs.shape fun _ hp => hs.part hp

theorem follows_runRootFreely {rule : Rule}
    (hrule : rule.toSegment.Throughout (Shape.ScriptIn Script.PassesOn)) :
    Follows (Reachable text) Stop.GoesOn (grammar.runRoot rule : Parse lexer Outcome)
      (grammar.runRootFreely bound rule) := by
  refine ⟨keeps_runRoot (rule.keeps_run grammar), fun s hs => ?_⟩
  unfold Grammar.runRoot Grammar.runRootFreely
  rw [Rule.run_eq, Segment.run]
  rcases (follows_runFreely hg hbound (grammar.maxDepth - s.depth) hrule).agrees s hs
    with he | ⟨e, s', he, hP⟩
  · rw [he]
    exact Or.inl rfl
  · rw [he]
    cases e with
    | error e => exact Or.inr ⟨_, _, rfl, hP⟩
    | endless => exact Or.inr ⟨_, _, rfl, hP⟩

theorem follows_parseFreely (root : String) :
    Follows (Reachable text) Stop.GoesOn (grammar.parse root : Parse lexer Value)
      (grammar.parseFreely bound root) := by
  unfold Grammar.parse Grammar.parseFreely
  cases hfind : grammar.find? root with
  | none => exact (keeps_refuse _).follows
  | some rule =>
    exact (keeps_remark rfl).bind_follows fun _ =>
      (follows_runRootFreely hg hbound (hg.find? hfind)).bind fun o =>
        (keeps_concluded root o).follows

end

/-- Every parse of a text ends, with a value or with an error, if the separators of lists do not
match without reading anything. If under some other limit it would nest beyond the limit of the
grammar, it ends too deep. If without a look at what they read the repetitions would take more steps
than the text has characters, however many are allowed, it ends with the error of a repetition that
reads nothing. Only a script could hide these errors, where it runs the segment that ends with one.
And the lexer's search for a token comes to its end by itself. -/
theorem parse_ends {grammar : Grammar}
    (hgrammar : ∀ s ∈ grammar.separators, s.Consumes grammar lexer text) (root : String) :
    ((∃ v s, grammar.parseText lexer root text = .ok v s) ∨
      ∃ e s, grammar.parseText lexer root text = .error (.error e) s) ∧
    (grammar.Throughout (Shape.ScriptIn Script.Unlimited) →
      ∀ limit, ¬ (stateOf ((grammar.limited limit).parseText lexer root text)).Within
        grammar.maxDepth → EndsTooDeep (grammar.parseText lexer root text)) ∧
    (grammar.Throughout (Shape.ScriptIn Script.PassesOn) →
      ∀ bound s, text.toList.length + 2 ≤ bound →
        grammar.parseFreely bound root (Stream.ofString text : Stream lexer) = .error .endless s →
        ∃ e s', grammar.parseText lexer root text = .error e s' ∧ e.Repeats) ∧
    ∀ (c : Cursor) (fuel : Nat), c.rest.length ≤ fuel → lexer.readWithin fuel c = lexer.read c := by
  have hends := ends_parse hgrammar root
  have hnever (s : Stream lexer) :
      grammar.parse root (Stream.ofString text) ≠ .error .endless s := by
    intro h
    rcases hends with ⟨v, s', hv⟩ | ⟨e, s', he⟩
    · rw [Grammar.parseText, h] at hv
      cases hv
    · rw [Grammar.parseText, h] at he
      cases he
  refine ⟨hends, fun hunlimited limit h => ?_, fun hpasses bound s hbound hfree => ?_,
    fun c fuel hfuel => ?_⟩
  · exact tooDeep_of_beyond hunlimited root text h
  · rcases (follows_parseFreely hpasses hbound root).agrees (Stream.ofString text) .start with
      hsame | ⟨e, s', hparse, rfl | hrepeats⟩
    · exact absurd (hsame.trans hfree) (hnever s)
    · exact absurd hparse (hnever s')
    · exact ⟨e, s', hparse, hrepeats⟩
  · exact lexer.readWithin_eq hfuel (Nat.le_refl _)

/-- Words of one letter and the marks of a list. -/
def wordsAndMarks : Lexer where
  forms := [⟨"word", [.literals ["a"]], []⟩, ⟨"mark", [.literals ["(", ",", ")"]], []⟩]

/-- A rule that begins with itself, a repetition that reads nothing, and a list. -/
def circling : Grammar where
  maxDepth := 8
  rules := [
    { name := "again", segments := [.reference "again", .leaf "word"] },
    { name := "still", segments := [.untilEnd .nothing] },
    { name := "list", segments := [
        .delimited (.exact "mark" "(") (.exact "mark" ")") (.exact "mark" ",") (.leaf "word")] }]

theorem scriptless_circling : circling.Scriptless := by
  have hsingle {s : Segment} (hp : s.shape.parts = []) (hs : s.shape.ScriptIn fun _ => False) :
      s.Scriptless := Segment.throughout_of_parts_eq_nil hp hs
  have hagain : ∀ s ∈ [Segment.reference "again", .leaf "word"], s.Scriptless :=
    List.forall_mem_cons.2 ⟨hsingle rfl trivial, List.forall_mem_singleton.2 (hsingle rfl trivial)⟩
  have hstill : (Segment.untilEnd .nothing).Scriptless :=
    Segment.throughout_iff.2 ⟨trivial, List.forall_mem_singleton.2 (hsingle rfl trivial)⟩
  have hlist : (Segment.delimited (.exact "mark" "(") (.exact "mark" ")") (.exact "mark" ",")
      (.leaf "word")).Scriptless := by
    refine Segment.throughout_delimited.2 ⟨trivial, ?_, ?_, ?_, ?_⟩ <;> exact hsingle rfl trivial
  unfold Grammar.Scriptless Grammar.Throughout circling
  rw [List.forall_mem_cons, List.forall_mem_cons, List.forall_mem_singleton]
  exact ⟨Rule.scriptless_toSegment hagain,
    Rule.scriptless_toSegment (List.forall_mem_singleton.2 hstill),
    Rule.scriptless_toSegment (List.forall_mem_singleton.2 hlist)⟩

/-- Did it go on for too many steps? -/
def ranOut {lexer : Lexer} : EStateM.Result Stop (Stream lexer) α → Bool
  | .error .endless _ => true
  | _ => false

theorem exists_of_ranOut {lexer : Lexer} {r : EStateM.Result Stop (Stream lexer) α}
    (h : ranOut r = true) : ∃ s, r = .error .endless s := by
  unfold ranOut at h
  split at h
  · exact ⟨_, rfl⟩
  · cases h

/-- The list is parsed or refused, the rule that begins with itself nests too deep, and the
repetition that reads nothing is refused for that. -/
theorem parse_ends_circling :
    (∀ text, ∀ s ∈ circling.separators, s.Consumes circling wordsAndMarks text) ∧
      ((∃ v s, circling.parseText wordsAndMarks "list" "(a,a)" = .ok v s) ∨
        ∃ e s, circling.parseText wordsAndMarks "list" "(a,a)" = .error (.error e) s) ∧
      EndsTooDeep (circling.parseText wordsAndMarks "again" "a") ∧
      ∃ e s, circling.parseText wordsAndMarks "still" "a" = .error e s ∧ e.Repeats := by
  have h (text : String) : ∀ s ∈ circling.separators, s.Consumes circling wordsAndMarks text := by
    intro s hs
    rw [show circling.separators = [.exact "mark" ","] from rfl, List.mem_singleton] at hs
    subst hs
    exact Segment.consumes_of_readsToken rfl circling wordsAndMarks text
  obtain ⟨s, hs⟩ := exists_of_ranOut
    (r := circling.parseFreely 10 "still" (Stream.ofString "a" : Stream wordsAndMarks))
    (by decide +kernel)
  exact ⟨h, (parse_ends (h _) "list").1,
    (parse_ends (h _) "again").2.1 (scriptless_circling.throughout _) 30 (by decide +kernel),
    (parse_ends (h _) "still").2.2.1 (scriptless_circling.throughout _) 10 s (by decide) hs⟩

/-- A list whose elements and separators read nothing goes on for ever. -/
example : ranOut (({ rules := [{ name := "list", segments := [
      .delimited .nothing (.exact "mark" ")") .nothing .nothing] }] } : Grammar).parseText
    wordsAndMarks "list" "a") = true := by decide +kernel

end Descent
