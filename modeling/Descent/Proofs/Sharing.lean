import Mathlib.Logic.Function.Basic
import Descent.Grammar.Registry
import Descent.Proofs.Backtracking

/-!
# References that are shared

A reference can stand in several grammars at once and remembers its rule in one of them. `System`
runs one reference with its memory in any of some registries, while rules are added to these. The
plain grammars have neither an index nor a memory: there the name is looked up in each run. Nobody
can tell the two apart.

The memory is filled before the run of the rule begins, and once filled it is never replaced. So the
runs inside, in which the same reference may come again, all have the memory of that moment.

* `Memory.Right.body_eq`, `runFrom_eq`: with a right memory, everything runs as without.
* `Agrees.step`: every step gives the same answer on both sides, and they go on agreeing.
* `answers_eq_plain`: so does every row of runs and of rules that are added.
-/
namespace Descent

variable {lexer : Lexer}

/-! ## Runs with a memory -/

/-- What a shape does where the reference to `name` has a memory. -/
def Shape.bodyFrom (memory : Memory) (name : String) (g : Registry) (run : Runner lexer) :
    Shape → Parse lexer Outcome
  | .reference other =>
    if other = name then
      match (memory.lookUp name g).1 with
      | some rule => run rule.toSegment
      | none => Parse.refuse (.unknownRule name)
    else (Shape.reference other).body g.grammar run
  | shape => shape.body g.grammar run

/-- Runs a segment with this number of levels left, where the reference to `name` has a memory. -/
def Segment.runFrom (memory : Memory) (name : String) (g : Registry) : Nat → Runner lexer
  | 0, _ => Parse.deeper (tooDeep g.maxDepth)
  | levels + 1, s =>
    Parse.deeper (attempt s.options (s.shape.bodyFrom memory name g (runFrom memory name g levels)))

/-- A run that begins in `s` comes to the body of its segment. -/
def Registry.admits (g : Registry) (s : Stream lexer) : Bool :=
  s.depth < g.maxDepth && match Stream.position (s.atDepth (s.depth + 1)) with
    | .ok .. => true
    | .error .. => false

/-- Runs the reference itself. The rule is looked up when the body begins. -/
def Memory.run (memory : Memory) (name : String) (options : Options) (g : Registry)
    (s : Stream lexer) : EStateM.Result Stop (Stream lexer) Outcome × Memory :=
  let known := (memory.lookUp name g).2
  let inner := Segment.runFrom known name g (g.maxDepth - (s.depth + 1))
  (guarded g.grammar options (Shape.bodyFrom memory name g inner (.reference name)) s,
    if g.admits s then known else memory)

section

variable {memory : Memory} {name : String} {g g' : Registry}

theorem Memory.Right.body_eq (h : memory.Right name g) (run : Runner lexer) (shape : Shape) :
    shape.bodyFrom memory name g run = shape.body g.grammar run := by
  cases shape with
  | reference other =>
    simp only [Shape.bodyFrom]
    split
    · next hname =>
      subst hname
      rw [h.lookUp_eq, Registry.rule?_eq_find?]
      rfl
    · rfl
  | _ => rfl

theorem runFrom_eq (h : memory.Right name g) (levels : Nat) (s : Segment) :
    (s.runFrom memory name g levels : Parse lexer Outcome) = s.runWithin g.grammar levels := by
  induction levels generalizing s with
  | zero => rfl
  | succ levels ih =>
    rw [Segment.runFrom, Segment.runWithin_succ, h.body_eq,
      show Segment.runFrom memory name g levels = Segment.runWithin g.grammar levels from funext ih]

/-- The reference runs as it does in the plain grammar. -/
theorem Memory.Right.run_eq (h : memory.Right name g) (options : Options) (s : Stream lexer) :
    (memory.run name options g s).1 = Segment.run g.grammar ⟨.reference name, options⟩ s := by
  have hknown := h.after_lookUp fun _ => rfl
  have hinner : Segment.runFrom (memory.lookUp name g).2 name g (g.maxDepth - (s.depth + 1)) =
      innerRun g.grammar s := funext fun t => runFrom_eq hknown _ t
  simp only [run_eq_guarded, Memory.run, h.body_eq, hinner]

theorem Memory.Right.after_run (h : memory.Right name g') (hid : g'.id = g.id → g' = g)
    (options : Options) (s : Stream lexer) : (memory.run name options g s).2.Right name g' := by
  unfold Memory.run
  split
  · exact h.after_lookUp hid
  · exact h

end

/-! ## One reference in many grammars -/

namespace Sharing

variable {ι : Type} [DecidableEq ι]

/-- A rule is added to a grammar, or the reference is run in it. -/
inductive Action (ι : Type) where
  | define (i : ι) (rule : Rule)
  | run (i : ι) {lexer : Lexer} (s : Stream lexer)

inductive Answer where
  | defined (refusal : Except GrammarError Unit)
  | ran {lexer : Lexer} (result : EStateM.Result Stop (Stream lexer) Outcome)

/-- The registries, and what the reference remembers. -/
structure System (ι : Type) where
  registries : ι → Registry
  memory : Memory := none

/-- A rule that is refused leaves the grammar as it is. -/
def accepted {γ : Type} (grammars : ι → γ) (i : ι) :
    Except GrammarError γ → Except GrammarError Unit × (ι → γ)
  | .ok g => (.ok (), Function.update grammars i g)
  | .error e => (.error e, grammars)

/-- One action, where the reference has a memory. -/
def System.step (name : String) (options : Options) (x : System ι) :
    Action ι → Answer × System ι
  | .define i rule =>
    let (refusal, registries) := accepted x.registries i ((x.registries i).define rule)
    (.defined refusal, { x with registries })
  | .run i s =>
    let (result, memory) := x.memory.run name options (x.registries i) s
    (.ran result, { x with memory })

/-- One action, where each run looks up the name in the grammar as it is. -/
def plainStep (name : String) (options : Options) (grammars : ι → Grammar) :
    Action ι → Answer × (ι → Grammar)
  | .define i rule =>
    let (refusal, grammars) := accepted grammars i ((grammars i).define rule)
    (.defined refusal, grammars)
  | .run i s => (.ran (Segment.run (grammars i) ⟨.reference name, options⟩ s), grammars)

/-- The answers to actions in a row. -/
def answers {σ : Type} (step : σ → Action ι → Answer × σ) (x : σ) : List (Action ι) → List Answer
  | [] => []
  | a :: rest => (step x a).1 :: answers step (step x a).2 rest

/-- The registries hold the rules of the grammars, they can be told apart, and what is remembered of
any of them is right. -/
structure Agrees (name : String) (x : System ι) (grammars : ι → Grammar) : Prop where
  distinct : Function.Injective fun i => (x.registries i).id
  grammar_eq : ∀ i, (x.registries i).grammar = grammars i
  right : ∀ i, x.memory.Right name (x.registries i)

variable {name : String} {options : Options} {x : System ι} {grammars : ι → Grammar}

theorem Agrees.define (h : Agrees name x grammars) (i : ι) (rule : Rule) :
    (x.step name options (.define i rule)).1 =
        (plainStep name options grammars (.define i rule)).1 ∧
      Agrees name (x.step name options (.define i rule)).2
        (plainStep name options grammars (.define i rule)).2 := by
  have hdefine := Registry.grammar_define (x.registries i) rule
  rw [h.grammar_eq] at hdefine
  simp only [System.step, plainStep, ← hdefine]
  cases hg : (x.registries i).define rule with
  | error e => exact ⟨rfl, h⟩
  | ok g =>
    have hid : ∀ j, (Function.update x.registries i g j).id = (x.registries j).id :=
      (Function.forall_update_iff x.registries fun j g' => g'.id = (x.registries j).id).2
        ⟨Registry.id_define hg, fun _ _ => rfl⟩
    have hgrammar : ∀ j, (Function.update x.registries i g j).grammar =
        Function.update grammars i g.grammar j := fun j => by
      rw [Function.apply_update fun _ => Registry.grammar]
      simp only [h.grammar_eq]
    have hright : ∀ j, x.memory.Right name (Function.update x.registries i g j) :=
      (Function.forall_update_iff x.registries fun _ g' => x.memory.Right name g').2
        ⟨(h.right i).define hg, fun j _ => h.right j⟩
    exact ⟨rfl, fun j k hjk => h.distinct (by simpa only [accepted, hid] using hjk), hgrammar,
      hright⟩

theorem Agrees.run (h : Agrees name x grammars) (i : ι) (s : Stream lexer) :
    (x.step name options (.run i s)).1 = (plainStep name options grammars (.run i s)).1 ∧
      Agrees name (x.step name options (.run i s)).2
        (plainStep name options grammars (.run i s)).2 := by
  refine ⟨?_, h.distinct, h.grammar_eq, fun j => ?_⟩
  · simp only [System.step, plainStep, (h.right i).run_eq, h.grammar_eq]
  · exact (h.right j).after_run (fun hid => congrArg x.registries (h.distinct hid)) options s

theorem Agrees.answers_eq (h : Agrees name x grammars) (actions : List (Action ι)) :
    answers (System.step name options) x actions =
      answers (plainStep name options) grammars actions := by
  induction actions generalizing x grammars with
  | nil => rfl
  | cons a rest ih =>
    obtain ⟨ha, hx⟩ : (x.step name options a).1 = (plainStep name options grammars a).1 ∧
        Agrees name (x.step name options a).2 (plainStep name options grammars a).2 := by
      cases a with
      | define i rule => exact h.define i rule
      | run i s => exact h.run i s
    rw [answers, answers, ha, ih hx]

/-- One reference, run in any number of grammars that can be told apart while rules are added to
them or refused: every run, and every rule that is added, gives what it gives in plain grammars in
which the reference looks up its name each time. -/
theorem answers_eq_plain (name : String) (options : Options) {registries : ι → Registry}
    (h : Function.Injective fun i => (registries i).id) (actions : List (Action ι)) :
    answers (System.step name options) ⟨registries, none⟩ actions =
      answers (plainStep name options) (fun i => (registries i).grammar) actions :=
  Agrees.answers_eq ⟨h, fun _ => rfl, fun i => Memory.right_none name (registries i)⟩ actions

/-- Was the rule accepted, or did the run match? -/
def Answer.succeeded : Answer → Bool
  | .defined (.ok _) => true
  | .ran (.ok o _) => o.isMatch
  | _ => false

def twoRegistries : Bool → Registry
  | false => { id := 0 }
  | true => { id := 1 }

/-- The rule has different places in the two grammars. Each is asked for it before it is there, the
first is asked again after the second, and refuses to take it twice. -/
def askedInTurn : List (Action Bool) :=
  let word : Rule := { name := "name", segments := [.ofKind "word"] }
  let s : Stream wordsAndBlanks := .ofString "a"
  [.run false s, .define false word, .run false s,
    .define true { name := "other" }, .run true s, .define true word, .run true s,
    .define false word, .run false s]

theorem answers_eq_plain_askedInTurn :
    (Function.Injective fun i => (twoRegistries i).id) ∧
      (answers (System.step "name" {}) ⟨twoRegistries, none⟩ askedInTurn).map Answer.succeeded =
        [false, true, true, true, false, true, true, false, true] ∧
      answers (System.step "name" {}) ⟨twoRegistries, none⟩ askedInTurn =
        answers (plainStep "name" {}) (fun i => (twoRegistries i).grammar) askedInTurn := by
  have hdistinct : Function.Injective fun i => (twoRegistries i).id := by
    unfold Function.Injective
    decide
  exact ⟨hdistinct, by decide, answers_eq_plain "name" {} hdistinct askedInTurn⟩

end Sharing

end Descent
