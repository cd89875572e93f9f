import Descent.Proofs.SurveyRuns

/-!
# References to rules that are there

A grammar is valid if every reference in it names one of its rules. The check reads the recorded
references; a run looks each name up where it comes to it. `Resolves` says of an operation that it
does not stop for a rule that is missing. Only a reference stops for that reason, and no combinator
makes up a reference, so a run of a valid grammar never does. Nothing has to be known of places for
this: the survey in which no rule may be missing asks for nothing else.

* `Survey.tame_of_resolved`: shapes whose references have their rules.
* `resolves_parse`: every parse of a grammar of such shapes.
* `validate_ok_iff_resolved`: the check says what it is meant to say.
-/
namespace Descent

open Descent.Stream

variable {lexer : Lexer} {α : Type}

/-- The reason is that there is no rule of some name. -/
def Stop.MissesRule (e : Stop) : Prop := ∃ name, e = .error (.unknownRule name)

/-- The operation does not stop for a rule that is missing. -/
def Resolves (x : Parse lexer α) : Prop := ∀ s e s', x s = .error e s' → ¬ e.MissesRule

/-- If the shape is a reference, then there is its rule. A script may stop with any error. -/
def Shape.Resolved (g : Grammar) : Shape → Prop
  | .reference name => g.defines name = true
  | .script .. => False
  | _ => True

/-- Nothing is known of places; but no rule may be missed. -/
def Survey.resolving : Survey lexer := { Survey.blank with missing := fun _ => False }

theorem Survey.tame_of_resolved {g : Grammar} {shape : Shape} (h : shape.Resolved g) :
    (resolving : Survey lexer).Tame (fun _ => True) g shape := by
  cases shape with
  | reference name => exact Or.inl h
  | script => exact h.elim
  | inline rule => exact fun _ _ _ _ _ _ => trivial
  | _ => trivial

/-- Where every reference has its rule, no parse from one of the rules misses one. -/
theorem resolves_parse {g : Grammar} (hg : g.Throughout (Shape.Resolved g)) {root : String}
    (hroot : g.defines root = true) : Resolves (g.parse root : Parse lexer Value) := by
  have htame : g.Throughout ((Survey.resolving : Survey lexer).Tame (fun _ => True) g) :=
    hg.mono fun _ => Survey.tame_of_resolved
  intro s e s' he hmissed
  obtain ⟨name, rfl⟩ := hmissed
  have hparse := Survey.yields_parse (.of_true _) htame root (Or.inl hroot) (fun _ => True)
    (fun _ _ => trivial) s trivial
  rw [he] at hparse
  exact (hparse.2 _ rfl).rule name rfl

/-- In a grammar without scripts there is only a reference that can lack something. -/
theorem Grammar.Scriptless.throughout_resolved {g : Grammar} (hg : g.Scriptless)
    (h : ∀ rule ∈ g.rules, ∀ s ∈ rule.segments, ∀ t : Segment, t.Inside s →
      ∀ name, t.shape = .reference name → g.defines name = true) :
    g.Throughout (Shape.Resolved g) := by
  intro rule hr
  refine Segment.throughout_iff.2 ⟨trivial, fun s hs => ?_⟩
  have hs' : s.Scriptless := (hg rule hr).part hs
  refine hs'.throughout_of_inside fun t ht => ?_
  have hscript : t.shape.ScriptIn fun _ => False := hs'.inside ht
  have hname := h rule hr s hs t ht
  revert hscript hname
  cases t.shape with
  | reference name => exact fun _ hname => hname name rfl
  | script => exact fun hscript _ => hscript
  | _ => exact fun _ _ => trivial

/-- A grammar is valid if and only if there is a rule for every reference that stands anywhere in
its rules. If it is valid, and has no scripts, then no parse from any of its rules, with any lexer
and from anywhere in a text, ends because a rule is missing. -/
theorem validate_ok_iff_resolved (g : Grammar) :
    (g.validate = .ok () ↔
      ∀ rule ∈ g.rules, ∀ s ∈ rule.segments, ∀ t : Segment, t.Inside s →
        ∀ name, t.shape = .reference name → g.defines name = true) ∧
    (g.Scriptless → g.validate = .ok () →
      ∀ root, g.defines root = true → ∀ (lexer : Lexer) (s s' : Stream lexer) (name : String),
        g.parse root s ≠ .error (.error (.unknownRule name)) s') := by
  have hvalid : g.validate = .ok () ↔
      ∀ rule ∈ g.rules, ∀ s ∈ rule.segments, ∀ t : Segment, t.Inside s →
        ∀ name, t.shape = .reference name → g.defines name = true := by
    rw [Grammar.validate_eq_ok_iff]
    constructor
    · intro h rule hr s hs t ht name hname
      refine h rule hr name ?_
      rw [Rule.references_eq]
      exact List.mem_flatMap.2 ⟨s, hs, Segment.mem_references_iff.2 ⟨t, ht, hname⟩⟩
    · intro h rule hr name hname
      rw [Rule.references_eq] at hname
      obtain ⟨s, hs, hname⟩ := List.mem_flatMap.1 hname
      obtain ⟨t, ht, hname⟩ := Segment.mem_references_iff.1 hname
      exact h rule hr s hs t ht name hname
  refine ⟨hvalid, fun hg h root hroot lexer s s' name he => ?_⟩
  exact resolves_parse (hg.throughout_resolved (hvalid.1 h)) hroot s _ s' he ⟨name, rfl⟩

/-! ## A grammar whose rules refer to each other -/

/-- Values are words or lists of values. -/
def valuesAndLists : Grammar where
  rules :=
    [{ name := "value", segments := [.choice [.ofKind "word", .reference "list"]] },
     { name := "list"
       segments := [.delimited (.exact "mark" "(") (.exact "mark" ")") (.exact "mark" ",")
         (.keyed (.reference "value") "item")] }]

theorem scriptless_valuesAndLists : valuesAndLists.Scriptless := by
  have hleaf {s : Segment} (hp : s.shape.parts = []) (hs : s.shape.ScriptIn fun _ => False) :
      s.Scriptless := Segment.throughout_of_parts_eq_nil hp hs
  intro rule hr
  refine Segment.throughout_iff.2 ⟨trivial, ?_⟩
  rcases List.mem_cons.1 hr with rfl | hr
  · refine List.forall_mem_singleton.2 (Segment.throughout_iff.2 ⟨trivial, fun p hp => ?_⟩)
    simp only [Segment.choice, Segment.labelled, Shape.parts, List.mem_cons, List.not_mem_nil,
      or_false] at hp
    rcases hp with rfl | rfl <;> exact hleaf rfl trivial
  · obtain rfl := List.mem_singleton.1 hr
    refine List.forall_mem_singleton.2 (Segment.throughout_iff.2 ⟨trivial, fun p hp => ?_⟩)
    simp only [Segment.delimited, Segment.labelled, Shape.parts, List.mem_cons, List.not_mem_nil,
      or_false] at hp
    rcases hp with rfl | rfl | rfl | rfl <;> exact hleaf rfl trivial

/-- The references stand in a choice and in a list, one of them under a key. -/
theorem validate_ok_iff_resolved_valuesAndLists :
    valuesAndLists.validate = .ok () ∧
      (∀ rule ∈ valuesAndLists.rules, ∀ s ∈ rule.segments, ∀ t : Segment, t.Inside s →
        ∀ name, t.shape = .reference name → valuesAndLists.defines name = true) ∧
      ∀ (lexer : Lexer) (s s' : Stream lexer) (name : String),
        valuesAndLists.parse "value" s ≠ .error (.error (.unknownRule name)) s' := by
  have hvalid : valuesAndLists.validate = .ok () := by rfl
  exact ⟨hvalid, (validate_ok_iff_resolved valuesAndLists).1.1 hvalid,
    (validate_ok_iff_resolved valuesAndLists).2 scriptless_valuesAndLists hvalid "value" rfl⟩

end Descent
