import Descent.Proofs.Attempts
import Descent.Proofs.DepthLimit
import Descent.Proofs.Documents

/-!
# A rule in place of its name

A reference runs the rule of its name as a segment, that is, it attempts an attempt. A rule that
stands where it is used is attempted once, one level less deep. So whoever writes the rule for its
name changes no result, as long as the nesting does not go too deep.

* `Segment.Unfolds`, `Grammar.Unfolds`: references that are replaced by the rules of their names,
  wherever they stand.
* `mirrors_unfolds`: a run against the run of what the segment unfolds to, with fewer levels left.
* `unfolds_run`, `unfolds_parse`: runs and whole parses.
* `reference_eq_rule`: a reference, a rule as a segment and a rule.
-/
namespace Descent

open Descent.Stream

variable {lexer : Lexer} {text : String} {α : Type} {g g' : Grammar}

/-! ## Unfolding -/

/-- The second segment is the first one, where some references stand for the rules of their names,
in these rules too. There are no scripts in them. -/
inductive Segment.Unfolds (g : Grammar) : Segment → Segment → Prop
  | alike {shape shape' : Shape} (options : Options)
    (h : shape.Like (fun _ => False) (Segment.Unfolds g) shape') :
    Unfolds g ⟨shape, options⟩ ⟨shape', options⟩
  | rule {r r' : Rule} (options : Options) {name : String} (hfind : g.find? name = some r)
    (h : r.Like (Segment.Unfolds g) r') : Unfolds g ⟨.reference name, options⟩ ⟨.inline r', options⟩

/-- The second grammar has the rules of the first one, where some references stand for rules. -/
structure Grammar.Unfolds (g g' : Grammar) : Prop where
  maxDepth : g.maxDepth = g'.maxDepth
  rules : List.Forall₂ (Rule.Like (Segment.Unfolds g)) g.rules g'.rules

theorem Grammar.Unfolds.find? (h : g.Unfolds g') (name : String) :
    Option.Rel (Rule.Like (Segment.Unfolds g)) (g.find? name) (g'.find? name) := by
  unfold Grammar.find?
  have hrules := h.rules
  generalize g.rules = rules at hrules ⊢
  generalize g'.rules = rules' at hrules ⊢
  induction hrules with
  | nil => exact .none
  | @cons r r' rest rest' hr _ ih =>
    rw [List.find?_cons, List.find?_cons, hr.name_eq]
    split
    · exact .some hr
    · exact ih

theorem Rule.Like.toSegment {r r' : Rule} (h : r.Like (Segment.Unfolds g) r') :
    r.toSegment.Unfolds g r'.toSegment := by
  unfold Rule.toSegment Segment.labelled
  rw [h.name_eq]
  exact .alike _ (.inline h)

theorem Grammar.Unfolds.find?_toSegment (h : g.Unfolds g') (name : String) :
    Option.Rel (fun r r' => r.toSegment.Unfolds g r'.toSegment) (g.find? name)
      (g'.find? name) := by
  have hrule := h.find? name
  generalize g.find? name = found at hrule ⊢
  generalize g'.find? name = found' at hrule ⊢
  cases hrule with
  | none => exact .none
  | some hr => exact .some hr.toSegment

/-- A segment without scripts unfolds to itself: no reference has to be replaced. -/
theorem Segment.Scriptless.unfolds {p : Segment} (h : p.Scriptless) : p.Unfolds g p := by
  induction p using Segment.inductionOn with
  | h p ih =>
    obtain ⟨shape, options⟩ := p
    exact .alike options (Shape.like_refl h.shape fun q hq => ih q hq (h.part hq))

theorem Grammar.Scriptless.unfolds (h : g.Scriptless) : g.Unfolds g := by
  refine ⟨rfl, List.forall₂_same.2 fun r hr => Rule.like_refl fun p hp => ?_⟩
  exact Segment.Scriptless.unfolds ((h r hr).part hp)

/-! ## Runs -/

theorem meets_attempt_tooDeep (options : Options) (limit : Nat) (body : Parse lexer Outcome)
    {s t : Stream lexer}
    (hE : Meets (Alike text) Stop.TooDeep (Parse.position s) (Parse.position t)) :
    Meets (Alike text) Stop.TooDeep (attempt options (Parse.deeper (tooDeep limit)) s)
      (attempt options body t) := by
  refine meets_attempt_of hE fun start s t hst hstart => ?_
  -- The look is repeated one level deeper, where it succeeds again.
  have hself : Alike text s s := .refl hst.left
  obtain ⟨seen, hseen, -⟩ : ∃ seen, Stream.position _ = .ok start seen ∧ _ :=
    hstart.alike (hself.nest_right (s.depth + 1))
  have hdeep : Parse.deeper (tooDeep limit) s =
      .error (.error (.tooDeep start limit)) (seen.atDepth (seen.depth - 1)) := by
    rw [deeper_apply, tooDeep, bind_apply, position_apply, hseen]
    rfl
  rw [settled, hdeep]
  exact .stopped _ ⟨start, limit, rfl⟩

/-- A run mirrors the run of what the segment unfolds to, with as many levels left or more. -/
theorem mirrors_unfolds (hg : g.Unfolds g') {levels levels' : Nat} (hle : levels ≤ levels')
    {p q : Segment} (h : p.Unfolds g q) :
    Mirrors (Alike text) Stop.TooDeep (p.runWithin g levels : Parse lexer Outcome)
      (q.runWithin g' levels') := by
  -- A reference takes two levels, so the levels of its rule are not the next smaller number.
  induction levels using Nat.strongRecOn generalizing levels' p q with
  | ind levels ih =>
    rcases levels with _ | levels
    · cases levels' <;> exact mirrors_deeper (mirrors_tooDeep _ _)
    obtain ⟨levels', rfl⟩ : ∃ n, levels' = n + 1 := ⟨levels' - 1, by omega⟩
    cases h with
    | alike options h =>
      exact mirrors_deeper (mirrors_attempt options (mirrors_body
        (fun p q h => ih levels (by omega) (by omega) h) (fun _ _ _ h _ => h.elim)
        hg.find?_toSegment h))
    | @rule r r' options name hfind h =>
      refine mirrors_deeper fun s t hE => ?_
      have hposition : Meets (Alike text) Stop.TooDeep (Parse.position s) (Parse.position t) :=
        mirrors_position s t hE
      have hname : (Shape.reference name).body g (Segment.runWithin g levels) =
          (Segment.runWithin g levels r.toSegment : Parse lexer Outcome) := by
        simp only [Shape.body, hfind]
      rw [hname]
      rcases levels with _ | levels
      · exact meets_attempt_tooDeep options _ _ hposition
      · have hrun (p q : Segment) (hpq : p.Unfolds g q) : Mirrors (Alike text) Stop.TooDeep
            (p.runWithin g levels : Parse lexer Outcome) (q.runWithin g' levels') :=
          ih levels (by omega) (by omega) hpq
        have honce : options.over r.toSegment.options = options :=
          Options.over_labelled options r.name
        have htwice := meets_attempt_attempt (mirrors_ruleBody hrun h)
          (forward_body g levels (.inline r)) options r.toSegment.options hposition
        rwa [honce] at htwice

/-- Streams that are alike and stand at one depth. -/
structure Stream.Abreast (text : String) (s t : Stream lexer) : Prop where
  alike : Alike text s t
  depth : s.depth = t.depth

instance (text : String) : Coupling (Abreast text : Stream lexer → Stream lexer → Prop) where
  view h := h.alike.view
  look h := ⟨Coupling.look h.alike, by rw [(peek_frame _).2, (peek_frame _).2, h.depth]⟩
  take h := ⟨Coupling.take h.alike, by rw [depth_next, depth_next, h.depth]⟩
  back h h' := ⟨Coupling.back h.alike h'.alike, h.depth⟩
  enter h label p := ⟨Coupling.enter h.alike label p, h.depth⟩
  remark h h' _ he := ⟨Coupling.remark h.alike h'.alike he, h.depth⟩

theorem Stream.Abreast.same {s t : Stream lexer} (h : Abreast text s t) : Same s t :=
  h.alike.view.same h.depth

theorem mirrors_run_unfolds (hg : g.Unfolds g') {p q : Segment} (h : p.Unfolds g q) :
    Mirrors (Abreast text) Stop.TooDeep (p.run g : Parse lexer Outcome) (q.run g') := by
  intro s t hE
  have hrun : Meets (Alike text) Stop.TooDeep (p.run g s) (q.run g' t) := by
    unfold Segment.run
    rw [hE.depth, hg.maxDepth]
    exact mirrors_unfolds hg (Nat.le_refl _) h s t hE.alike
  have hs : (stateOf (p.run g s)).depth = s.depth := Segment.depth_run g p s
  have ht : (stateOf (q.run g' t)).depth = t.depth := Segment.depth_run g' q t
  generalize p.run g s = x at hrun hs
  generalize q.run g' t = y at hrun ht
  cases hrun with
  | ok o h => exact .ok o ⟨h, hs.trans (hE.depth.trans ht.symm)⟩
  | error e h => exact .error e ⟨h, hs.trans (hE.depth.trans ht.symm)⟩
  | stopped _ h => exact .stopped _ h

/-! ## The same results -/

/-- The results give the same, and leave streams that differ in their journals only. -/
def SameResult (r r' : EStateM.Result Stop (Stream lexer) α) : Prop :=
  valueOf r = valueOf r' ∧ Same (stateOf r) (stateOf r')

theorem Meets.sameResult {r r' : EStateM.Result Stop (Stream lexer) α}
    (h : Meets (Abreast text) Stop.TooDeep r r') (hr : ¬ EndsTooDeep r) : SameResult r r' := by
  cases h with
  | ok a h => exact ⟨rfl, h.same⟩
  | error e h => exact ⟨rfl, h.same⟩
  | stopped r' h => exact absurd ⟨_, _, rfl, h⟩ hr

/-- A run that does not end too deep gives the same if references in the segment and in the grammar
are replaced by the rules of their names. -/
theorem unfolds_run (hg : g.Unfolds g') {p q : Segment} (h : p.Unfolds g q) {s : Stream lexer}
    (hs : s.Reachable text) (hd : ¬ EndsTooDeep (p.run g s)) :
    SameResult (p.run g s) (q.run g' s) :=
  (mirrors_run_unfolds hg h s s ⟨.refl hs, rfl⟩).sameResult hd

/-- So does a parse. -/
theorem unfolds_parse (hg : g.Unfolds g') (root : String) {s : Stream lexer}
    (hs : s.Reachable text) (hd : ¬ EndsTooDeep (g.parse root s)) :
    SameResult (g.parse root s) (g'.parse root s) := by
  have hparse : Mirrors (Abreast text) Stop.TooDeep (g.parse root : Parse lexer Value)
      (g'.parse root) := by
    refine mirrors_parse hg.find? (fun r r' h => ⟨h.name_eq, ?_⟩) root
    rw [Rule.run_eq, Rule.run_eq]
    exact mirrors_run_unfolds hg h.toSegment
  exact (hparse s s ⟨.refl hs, rfl⟩).sameResult hd

/-- In a grammar without scripts a reference to a rule, the rule as a segment and the rule itself
give the same results from every state of a stream, and leave it in the same state, unless the
reference nests too deep. A rule may stand in place of its name wherever in a grammar, and no parse
changes that does not end too deep. -/
theorem reference_eq_rule {s : Stream lexer} (hs : s.Reachable text) :
    (∀ r, g.Scriptless → g.find? r.name = some r →
      r.run g s = r.toSegment.run g s ∧
      (¬ EndsTooDeep ((Segment.reference r.name).run g s) →
        SameResult ((Segment.reference r.name).run g s) (r.toSegment.run g s))) ∧
    (∀ (g' : Grammar) (p q : Segment), g.Unfolds g' → p.Unfolds g q → ¬ EndsTooDeep (p.run g s) →
      SameResult (p.run g s) (q.run g' s)) ∧
    ∀ g' root, g.Unfolds g' → ¬ EndsTooDeep (g.parse root s) →
      SameResult (g.parse root s) (g'.parse root s) := by
  refine ⟨fun r hg hr => ⟨by rw [Rule.run_eq], unfolds_run hg.unfolds ?_ hs⟩,
    fun g' p q hg h => unfolds_run hg h hs, fun g' root hg => unfolds_parse hg root hs⟩
  have hrule : r ∈ g.rules := (Grammar.mem_of_find? hr).1
  have hself : r.Like (Segment.Unfolds g) r :=
    Rule.like_refl fun p hp => Segment.Scriptless.unfolds ((hg r hrule).part hp)
  exact .rule _ hr hself

theorem scriptless_wordTwice : wordTwice.Scriptless := by
  have hword : ((Segment.leaf "word").keyed "word").Scriptless :=
    Segment.throughout_of_parts_eq_nil rfl trivial
  have honce : (Segment.reference "once").Scriptless :=
    Segment.throughout_of_parts_eq_nil rfl trivial
  unfold Grammar.Scriptless Grammar.Throughout wordTwice
  simp only [List.forall_mem_cons]
  refine ⟨Rule.scriptless_toSegment ?_, Rule.scriptless_toSegment ?_, by simp⟩
  · simpa using hword
  · simpa using And.intro honce hword

/-- The rule for the first of two words. -/
def wordOnce : Rule := { name := "once", segments := [(Segment.leaf "word").keyed "word"] }

/-- Two words, with the rule for the first one written where it is used. -/
def wordTwiceUnfolded : Grammar where
  rules := [
    wordOnce,
    { name := "twice", kind := some "twice",
      segments := [wordOnce.toSegment, (Segment.leaf "word").keyed "word"] }]

theorem wordTwice_unfolds : wordTwice.Unfolds wordTwiceUnfolded := by
  have hword : List.Forall₂ (Segment.Unfolds wordTwice) [(Segment.leaf "word").keyed "word"]
      [(Segment.leaf "word").keyed "word"] := .cons (.alike _ (.leaf "word")) .nil
  have honce : (Segment.reference "once").Unfolds wordTwice wordOnce.toSegment :=
    .rule _ rfl (.of _ _ _ _ hword)
  exact ⟨rfl, .cons (.of _ _ _ _ hword) (.cons (.of _ _ _ _ (.cons honce hword)) .nil)⟩

/-- Two words are parsed the same with the rule for the first one and with its name. -/
theorem reference_eq_rule_wordTwice :
    let s : Stream wordsAndBlanks := .ofString " a a"
    s.Reachable " a a" ∧ wordTwice.Scriptless ∧ wordTwice.find? wordOnce.name = some wordOnce ∧
      ¬ EndsTooDeep ((Segment.reference wordOnce.name).run wordTwice s) ∧
      ¬ EndsTooDeep (wordTwice.parse "twice" s) ∧
      SameResult ((Segment.reference wordOnce.name).run wordTwice s)
        (wordOnce.toSegment.run wordTwice s) ∧
      SameResult (wordTwice.parse "twice" s) (wordTwiceUnfolded.parse "twice" s) := by
  intro s
  have hs : s.Reachable " a a" := .start
  have hfind : wordTwice.find? wordOnce.name = some wordOnce := rfl
  have hrun : ¬ EndsTooDeep ((Segment.reference wordOnce.name).run wordTwice s) := by
    decide +kernel
  have hparse : ¬ EndsTooDeep (wordTwice.parse "twice" s) := by decide +kernel
  obtain ⟨hrule, -, hwhole⟩ : _ ∧ _ ∧ _ := reference_eq_rule (g := wordTwice) hs
  exact ⟨hs, scriptless_wordTwice, hfind, hrun, hparse,
    (hrule wordOnce scriptless_wordTwice hfind).2 hrun, hwhole _ _ wordTwice_unfolds hparse⟩

end Descent
