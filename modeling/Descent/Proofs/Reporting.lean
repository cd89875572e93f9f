import Descent.Proofs.Delimiting
import Descent.Proofs.Furthest

/-!
# Where a failure is reported

A parse makes an error of the failure of its root, and when it does the stream is back where the
root began. A failure that has a message brings its own position along. One without a message leaves
both to the report, which names the next token, and that is the first one of the run however far the
run had come. Every failure has a message but those of scripts that give none.

* `Plan.Honest.explains`, `explains_run`: runs whose failures have a message.
* `parse_of_failure`: a parse is refused with the report of the failure of its root.
* `parse_reports`: the position and the text of that error.
-/
namespace Descent

open Descent.Stream

variable {lexer : Lexer} {text : String} {g : Grammar} {s t u : Stream lexer} {p : Segment}
  {root : String} {rule : Rule} {o : Outcome} {f : Failure}

/-! ## Failures that have a message -/

/-- If it is a failure it has a message. -/
def Outcome.Explained (o : Outcome) : Prop := ∀ f, o.failure? = some f → f.message.isSome = true

/-- Wherever it fails, it says why. -/
def Explains (x : Parse lexer Outcome) : Prop := ∀ s o t, x s = .ok o t → o.Explained

/-- Over every stream the script says why it fails, if the segments that it runs do. -/
def Script.Explained (lexer : Lexer) (request : Script) : Prop :=
  ∀ (depthLimit : Nat) (runs : List (Parse lexer Outcome)), (∀ x ∈ runs, Explains x) →
    Explains (request.run depthLimit runs [])

theorem Outcome.explained_of_isMatch (h : o.isMatch = true) : o.Explained := by
  intro f hf
  rw [(Outcome.isMatch_iff_failure? o).1 h] at hf
  cases hf

theorem explains_single {shape : Shape} (hshape : shape.Single) (run : Runner lexer) :
    Explains (shape.body g run) := by
  intro s o t h
  obtain ⟨found, seen, -, hend⟩ := singleEnd_body hshape h
  rcases hend with ⟨hm, -⟩ | ⟨-, -, position, message, rfl, -⟩
  · exact Outcome.explained_of_isMatch hm
  · intro f hf
    cases hf
    rfl

/-- An honest plan gives its own failures a message and passes on those of the runs it calls. -/
theorem Plan.Honest.explains {known : Segment → Prop} {own : Bool} {failures : Outcome → Prop}
    {run : Runner lexer} {plan : Plan lexer}
    (h : plan.Honest known (Script.Explained lexer) own failures)
    (hrun : ∀ p, known p → Explains (run p)) (hfailures : ∀ o, failures o → o.Explained) :
    Explains (plan.go g run) := by
  induction plan generalizing own failures with
  | done o =>
    intro s o' t hx
    cases hx
    exact h.elim Outcome.explained_of_isMatch (hfailures o)
  | single shape => exact explains_single h.2 run
  | script request parts =>
    exact h.2.1 _ _ (List.forall_mem_map.2 fun p hp => hrun p (h.2.2 p hp))
  | stop e =>
    intro s o t hx
    cases hx
  | complain o =>
    intro s o' t hx
    obtain ⟨e, u, -, hrefused⟩ := ok_of_bind hx
    cases hrefused
  | peek answer ih | position answer ih | observe answer ih =>
    intro s o t hx
    obtain ⟨a, u, -, hx⟩ := ok_of_bind hx
    exact ih a (h a) hfailures u o t hx
  | call p answer ih =>
    intro s o t hx
    obtain ⟨a, u, ha, hx⟩ := ok_of_bind hx
    refine ih a (h.2 a) (fun o' ho => ?_) u o t hx
    rcases ho.2 with hold | rfl
    · exact hfailures o' hold
    · exact hrun p h.1 s o' u ha
  | taking missing right answer ihmissing ihright ihanswer =>
    obtain ⟨hmissing, hright, hanswer⟩ := h
    rw [go_taking]
    intro s o t hx
    obtain ⟨_, _, hget, hx⟩ := ok_of_bind hx
    cases hget
    obtain ⟨found, u, -, hx⟩ := ok_of_bind hx
    cases found with
    | none => exact ihmissing hmissing (fun _ => False.elim) u o t hx
    | some token =>
      obtain ⟨a, w, ha, hx⟩ := ok_of_bind hx
      split at hx
      · next hm =>
        exact ihanswer token a (hanswer token a hm) (fun _ => False.elim) w o t hx
      · obtain ⟨_, _, hmodify, hx⟩ := ok_of_bind hx
        cases hmodify
        cases hx
        exact ihright token (hright token) (fun _ => False.elim) u _ w ha

theorem explains_attempt (options : Options) {body : Parse lexer Outcome} (h : Explains body) :
    Explains (attempt options body) := by
  intro s o t hx
  rw [attempt_eq] at hx
  obtain ⟨start, u, -, hx⟩ := ok_of_bind hx
  obtain ⟨inside, behind, hb, ⟨-, -, span, rfl⟩ | ⟨f, e, hverdict, rfl, -⟩⟩ := settled_cases hx
  · exact Outcome.explained_of_isMatch rfl
  · intro f' hf'
    cases hf'
    exact h _ inside behind hb f (Outcome.failure?_eq_some_iff.2 hverdict)

theorem explains_deeper {x : Parse lexer Outcome} (h : Explains x) :
    Explains (Parse.deeper x) := by
  intro s o t hx
  obtain ⟨behind, hb, -⟩ := ok_of_deeper hx
  exact h _ o behind hb

/-- By induction on the levels: where every script says why it fails, every run does. -/
theorem explains_runWithin (hg : g.Throughout (Shape.ScriptIn (Script.Explained lexer)))
    (hp : p.Throughout (Shape.ScriptIn (Script.Explained lexer))) (levels : Nat) :
    Explains (p.runWithin g levels : Parse lexer Outcome) := by
  induction levels generalizing p with
  | zero =>
    refine explains_deeper fun s o t hx => ?_
    obtain ⟨start, u, -, hrefused⟩ := ok_of_bind hx
    cases hrefused
  | succ levels ih =>
    have hplan : (p.shape.plan g : Plan lexer).Honest
        (Segment.Throughout (Shape.ScriptIn (Script.Explained lexer))) (Script.Explained lexer)
        true Plan.noFailures := honest_plan hp.shape (fun q hq => hp.part hq) hg
    have hbody : Explains (p.shape.body g (Segment.runWithin g levels) : Parse lexer _) := by
      rw [← go_plan]
      exact hplan.explains (fun q hq => ih hq) fun _ => False.elim
    exact explains_deeper (explains_attempt _ hbody)

theorem explains_run (hg : g.Throughout (Shape.ScriptIn (Script.Explained lexer)))
    (hp : p.Throughout (Shape.ScriptIn (Script.Explained lexer))) :
    Explains (p.run g : Parse lexer Outcome) :=
  fun s o t h => explains_runWithin hg hp _ s o t h

/-! ## The report -/

/-- What is said of a token that can not stand here, or of the end of the text. -/
def unexpectedMessage : Option Token → String
  | some token => "Unexpected " ++ token.shown
  | none => "Unexpected end of input"

theorem complaint_of_message {message : String} (hf : o.failure? = some f)
    (hmessage : f.message = some message) :
    (Parse.complaint o : Parse lexer ParseError) = pure (.mismatch f.position message) := by
  obtain ⟨m, position, reached⟩ := f
  cases hmessage
  rw [Parse.complaint, hf]

theorem complaint_of_no_message {found : Option Token} {seen : Stream lexer}
    (hf : o.failure? = some f) (hmessage : f.message = none) (hp : peek s = .ok found seen) :
    ∃ position, valueOf (Stream.position s) = .ok position ∧
      valueOf (Parse.complaint o s) = .ok (.mismatch position (unexpectedMessage found)) := by
  obtain ⟨m, position, reached⟩ := f
  cases hmessage
  have hcomplaint : (Parse.complaint o : Parse lexer ParseError) = unexpected := by
    rw [Parse.complaint, hf]
    rfl
  obtain ⟨start, hstart⟩ := position_of_looked (peek_again hp)
  have hposition : Stream.position s = .ok start (seen.atDepth s.depth) :=
    (position_of_peek hp s.depth).trans (hstart _)
  have hpeek : peek (seen.atDepth s.depth) = .ok found (seen.atDepth s.depth) :=
    peek_looked (peek_again hp) _
  refine ⟨start, by rw [hposition]; rfl, ?_⟩
  rw [hcomplaint]
  simp only [unexpected, bind_apply, position_apply, hposition, Parse.peek, Parse.ofPull, hpeek]
  cases found <;> rfl

/-! ## The parse -/

/-- A parse is refused with the report that its root's failure gets where the root began. -/
theorem parse_of_failure (hs : s.Reachable text) (hfind : g.find? root = some rule)
    (hfails : rule.toSegment.Fails g s o) {e : ParseError}
    (he : valueOf (Parse.complaint o s) = .ok e) :
    valueOf (g.parse root s) = .error (.error e) := by
  have hbegan : (s.record (.parsing root)).LooksLike s := .record s _
  obtain ⟨u, hrun, -, hlook⟩ := hfails.again (hs.note (.parsing root)) hbegan
  have hroot : g.runRoot rule (s.record (.parsing root)) = .ok o u := by
    rw [Grammar.runRoot, Rule.run_eq, hrun]
  have hreport : valueOf (Parse.complaint o u) = .ok e :=
    (complaint_of_looksLike hlook o).trans he
  rw [parse_of_find? hfind, bind_apply, hroot]
  simp only [concluded, hfails.1, Bool.false_eq_true, if_false, bind_apply]
  cases hcomplaint : Parse.complaint o u with
  | error e' v =>
    rw [hcomplaint] at hreport
    cases hreport
  | ok e' v =>
    rw [hcomplaint] at hreport
    cases hreport
    rfl

/-- A parse whose root fails ends with a syntax error, when the stream is back where the root began.
If the failure has a message, the error has that message, and it stands where the failure was
recorded. If it has none, the error names the token that stands next where the root began, and has
its position, whether or not the failure was recorded there. So the error stands where the failure
was recorded if every script of the grammar says why it fails. -/
theorem parse_reports (hs : s.Reachable text) (hfind : g.find? root = some rule)
    (hrun : rule.run g s = .ok o t) (hf : o.failure? = some f) :
    t.LooksLike s ∧
    ∃ position message, valueOf (g.parse root s) = .error (.error (.mismatch position message)) ∧
      (∀ m, f.message = some m → position = f.position ∧ message = m) ∧
      (f.message = none → ∃ found, valueOf (peek s) = .ok found ∧
        valueOf (Stream.position s) = .ok position ∧ message = unexpectedMessage found) ∧
      (position = f.position ↔
        f.message.isSome = true ∨ valueOf (Stream.position s) = .ok f.position) ∧
      (g.Throughout (Shape.ScriptIn (Script.Explained lexer)) → position = f.position) := by
  rw [Rule.run_eq] at hrun
  have hm : o.isMatch = false := by rw [Outcome.isMatch, Outcome.failure?_eq_some_iff.1 hf]
  have hfails : rule.toSegment.Fails g s o := ⟨hm, t, hrun⟩
  obtain ⟨found, seen, hp⟩ := peek_of_run hrun
  refine ⟨looksLike_of_givesUp hs hp (.inl ⟨o, hrun, hm⟩), ?_⟩
  have hexplained (hg : g.Throughout (Shape.ScriptIn (Script.Explained lexer))) :
      f.message.isSome = true :=
    explains_run hg (hg rule (Grammar.mem_of_find? hfind).1) s o t hrun f hf
  cases hmessage : f.message with
  | some m =>
    have hreport : valueOf (Parse.complaint o s) = .ok (.mismatch f.position m) := by
      rw [complaint_of_message hf hmessage]
      rfl
    refine ⟨f.position, m, parse_of_failure hs hfind hfails hreport, fun m' hm' => ?_,
      fun hnone => ?_, by simp, fun _ => rfl⟩
    · cases hm'
      exact ⟨rfl, rfl⟩
    · cases hnone
  | none =>
    obtain ⟨position, hposition, hreport⟩ := complaint_of_no_message hf hmessage hp
    refine ⟨position, unexpectedMessage found, parse_of_failure hs hfind hfails hreport,
      fun m' hm' => ?_, fun _ => ⟨found, by rw [hp]; rfl, hposition, rfl⟩, ?_, fun hg => ?_⟩
    · cases hm'
    · rw [hposition]
      simp
    · have hsome := hexplained hg
      rw [hmessage] at hsome
      cases hsome

/-- The syntax error that a parse ends with. -/
def mismatch? {α : Type} : Except Stop α → Option (Position × String)
  | .error (.error (.mismatch position message)) => some (position, message)
  | _ => none

theorem eq_mismatch_of_mismatch? {α : Type} {r : Except Stop α} {position : Position}
    {message : String} (h : mismatch? r = some (position, message)) :
    r = .error (.error (.mismatch position message)) := by
  unfold mismatch? at h
  split at h
  · cases h
    rfl
  · cases h

/-- Reads a token and fails behind it without a message. -/
def balk : Script := .next fun _ => .position fun
  | .ok p => .finish (.silent p)
  | .error e => .abort (.reading e)

def stuck : Rule := { name := "stuck", segments := [.ofKind "word", .fail "stuck"] }

def balking : Rule := { name := "balking", segments := [.script balk] }

/-- Behind the first of two words one rule fails with a message and the other without one. The first
failure is reported where the second word starts, and the other one where the text does. -/
theorem parse_reports_stuck :
    let g : Grammar := { rules := [stuck, balking] }
    let s : Stream wordsAndBlanks := .ofString "a a"
    s.Reachable "a a" ∧ g.find? "stuck" = some stuck ∧ g.find? "balking" = some balking ∧
    (∃ o t f position, stuck.run g s = .ok o t ∧ o.failure? = some f ∧ position.offset = 2 ∧
      valueOf (g.parse "stuck" s) = .error (.error (.mismatch position "stuck"))) ∧
    ∃ o t f position message, balking.run g s = .ok o t ∧ o.failure? = some f ∧
      f.position.offset = 2 ∧ position.offset = 0 ∧
      valueOf (g.parse "balking" s) = .error (.error (.mismatch position message)) := by
  intro g s
  have hstuck : g.find? "stuck" = some stuck := rfl
  have hbalking : g.find? "balking" = some balking := rfl
  refine ⟨.start, hstuck, hbalking, ?_, ?_⟩
  · have hended : endedIn (fun o _ => o.failure?.any fun f =>
        f.message == some "stuck" && f.position.offset == 2) (stuck.run g s) = true := by
      decide +kernel
    obtain ⟨o, t, f, hrun, hf, hend⟩ := exists_failure_of_endedIn hended
    simp only [Bool.and_eq_true, beq_iff_eq] at hend
    obtain ⟨-, position, message, hparse, hsome, -⟩ := parse_reports .start hstuck hrun hf
    obtain ⟨rfl, rfl⟩ := hsome "stuck" hend.1
    exact ⟨o, t, f, f.position, hrun, hf, hend.2, hparse⟩
  · have hended : endedIn (fun o _ => o.failure?.any fun f =>
        f.message == none && f.position.offset == 2) (balking.run g s) = true := by
      decide +kernel
    obtain ⟨o, t, f, hrun, hf, hend⟩ := exists_failure_of_endedIn hended
    simp only [Bool.and_eq_true, beq_iff_eq] at hend
    obtain ⟨-, position, message, hparse, -, hnone, -⟩ := parse_reports .start hbalking hrun hf
    obtain ⟨found, -, hposition, -⟩ := hnone hend.1
    have hstart : valueOf (Stream.position s) = .ok ⟨0, 1, 1⟩ := by decide +kernel
    rw [hstart] at hposition
    cases hposition
    exact ⟨o, t, f, _, message, hrun, hf, hend.2, rfl, hparse⟩

/-- The error of a parse does not always stand where the failure of its root was recorded. -/
theorem failure_not_reported_there :
    ¬ ∀ (lexer : Lexer) (text : String) (g : Grammar) (root : String) (rule : Rule)
      (s t : Stream lexer) (o : Outcome) (f : Failure) (position : Position) (message : String),
      s.Reachable text → g.find? root = some rule → rule.run g s = .ok o t →
      o.failure? = some f →
      valueOf (g.parse root s) = .error (.error (.mismatch position message)) →
      position = f.position := by
  intro h
  let g : Grammar := { rules := [balking] }
  let s : Stream wordsAndBlanks := .ofString "a a"
  have hended : endedIn (fun o _ => o.failure?.any fun f => f.position.offset == 2)
      (balking.run g s) = true := by decide +kernel
  obtain ⟨o, t, f, hrun, hf, hoffset⟩ := exists_failure_of_endedIn hended
  have hreport : valueOf (g.parse "balking" s) =
      .error (.error (.mismatch ⟨0, 1, 1⟩ "Unexpected word a")) :=
    eq_mismatch_of_mismatch? (by decide +kernel)
  have hposition := h _ "a a" g "balking" balking s t o f _ _ .start rfl hrun hf hreport
  rw [← hposition] at hoffset
  cases hoffset

end Descent
