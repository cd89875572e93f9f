import Descent.Proofs.Survey

/-!
# What runs of grammars give

The combinators hand on what a `Survey` knows of the places of a text, so a heritable property of
nodes holds of all nodes that runs and parses give. The hand-written parts of a grammar, conversions
and scripts, have to do their share (`Tame`); where there are none, there is nothing to do.

* `tame_of_combined`: grammars without hand-written parts.
* `yields_body`: what a shape does, if the runs of its parts and of the rules do their share.
* `yields_run`, `yields_parse`: every run of a segment, and every parse.
-/
namespace Descent

open Descent.Stream

/-! ## What is written by hand -/

/-- If the shape is a rule, then without a conversion; and it is not a script. -/
def Shape.Combined : Shape → Prop
  | .inline rule => rule.convert = id
  | .script .. => False
  | _ => True

theorem Rule.combined_toSegment {rule : Rule} (hrule : rule.convert = id)
    (h : ∀ s ∈ rule.segments, s.Throughout Shape.Combined) :
    rule.toSegment.Throughout Shape.Combined := Segment.throughout_iff.2 ⟨hrule, h⟩

namespace Survey

variable {lexer : Lexer} {G : Survey lexer} {V : Value → Prop}

section

variable {N : Node → Prop}

/-! ## Segments -/

theorem yields_getD {runs : List (Parse lexer Outcome)}
    (h : ∀ x ∈ runs, G.Yields G.states x (G.Fits V)) (i : Nat) :
    G.Yields G.states (runs.getD i (pure .success)) (G.Fits V) := by
  rw [List.getD_eq_getElem?_getD]
  cases hi : runs[i]? with
  | some x => exact h x (List.mem_of_getElem? hi)
  | none => exact yields_pure fits_success

theorem yields_tokenBody {accepts : Token → Bool} {outcome : Token → Outcome} (expected : String)
    (h : ∀ t, G.spans t.span → G.Fits V (outcome t)) :
    G.Yields G.states (tokenBody accepts outcome expected) (G.Fits V) := by
  refine yields_position.bind fun start hstart => yields_peek.bind fun found hfound => ?_
  split
  · next token =>
    split
    · exact yields_next.bind fun _ _ => yields_pure (h token (hfound token rfl))
    · exact yields_pure (fits_failure hstart)
  · exact yields_pure (fits_failure hstart)

theorem yields_possiblyBody (kind expected : String) :
    G.Yields G.states (possiblyBody kind expected : Parse lexer Outcome) (G.Fits V) := by
  refine yields_peek.bind fun found _ => ?_
  split
  · exact yields_next.bind fun _ _ => yields_pure fits_success
  · exact yields_pure fits_success

variable {run : Runner lexer}

theorem yields_choiceBody {alternatives : List Segment}
    (h : ∀ s ∈ alternatives, G.Yields G.states (run s) (G.Fits V)) {best : Option Outcome}
    (hbest : ∀ o, best = some o → G.Fits V o) :
    G.Yields G.states (choiceBody run best alternatives) (G.Fits V) := by
  induction alternatives generalizing best with
  | nil =>
    cases best with
    | none => exact yields_position.bind fun p hp => yields_pure (fits_failure hp)
    | some o => exact yields_pure (hbest o rfl)
  | cons s rest ih =>
    rw [List.forall_mem_cons] at h
    refine h.1.bind fun o ho => ?_
    split
    · exact yields_pure ho
    · refine ih h.2 ?_
      intro b hb
      cases hb
      unfold further
      split
      · split
        · exact ho
        · exact hbest _ rfl
      · exact ho

theorem yields_optionalBody {s : Segment} (h : G.Yields G.states (run s) (G.Fits V)) :
    G.Yields G.states (optionalBody run s) (G.Fits V) := by
  refine h.bind fun o ho => ?_
  split
  · exact yields_pure ho
  · exact yields_pure fits_success

theorem yields_betweenBody {opening content closing : Segment}
    (ho : G.Yields G.states (run opening) (G.Fits V))
    (hi : G.Yields G.states (run content) (G.Fits V))
    (hc : G.Yields G.states (run closing) (G.Fits V)) :
    G.Yields G.states (betweenBody run opening content closing) (G.Fits V) := by
  refine ho.bind fun opened hopened => ?_
  split
  · exact yields_pure hopened
  · refine hi.bind fun inner hinner => ?_
    split
    · exact yields_pure hinner
    · refine hc.bind fun closed hclosed => ?_
      split
      · exact yields_pure hclosed
      · exact yields_pure (fits_ofData? hinner.data)

/-- What a rule has put together, or the failure of one of its segments. -/
def Gathered (G : Survey lexer) (N : Node → Prop) : Except Outcome Draft → Prop
  | .ok d => d.All N
  | .error o => G.Fits (Value.All N) o ∧ o.isMatch = false

theorem yields_gather (hN : Heritable G.spans N) {segments : List Segment}
    (h : ∀ s ∈ segments, G.Yields G.states (run s) (G.Fits (Value.All N))) (policy : Nesting)
    {d : Draft} (hd : d.All N) :
    G.Yields G.states (gather run policy d segments) (G.Gathered N) := by
  induction segments generalizing d with
  | nil => exact yields_pure hd
  | cons s rest ih =>
    rw [List.forall_mem_cons] at h
    refine h.1.bind fun o ho => ?_
    split
    · refine yields_get_bind fun t ht => ?_
      cases hadd : d.add o policy t.lastEnd with
      | ok d' => exact (yields_pure (hN.add hd ho.data hadd)).bind fun d' hd' => ih h.2 hd'
      | error e =>
        obtain ⟨key, rfl⟩ := Draft.add_eq_error hadd
        have hreports : G.Reports (.reservedKey key t.lastEnd) :=
          reports_of_place rfl (G.lastEnd ht)
        exact Yields.bind (yields_refuse hreports) fun d' hd' => ih h.2 hd'
    · next hm => exact yields_pure ⟨ho, by simpa using hm⟩

theorem yields_ruleBody (hN : Heritable G.spans N) {rule : Rule}
    (hrule : ∀ v : Value, v.Due G.spans N → (rule.convert v).Due G.spans N)
    (h : ∀ s ∈ rule.segments, G.Yields G.states (run s) (G.Fits (Value.All N))) :
    G.Yields G.states (ruleBody run rule) (G.Fits (Value.Due G.spans N)) := by
  refine (yields_gather hN h _ hN.empty).bind fun gathered hgathered => ?_
  split
  · next d =>
    refine yields_pure ?_
    cases hclose : d.close rule.kind with
    | none => exact fits_success
    | some v => exact fits_withData (hrule v (hN.close hgathered hclose))
  · exact yields_pure (hgathered.1.mono fun _ => hN.due)

/-- A reference has its rule, or that may be missing; hand-written parts give what the survey asks
for. -/
def Tame (G : Survey lexer) (N : Node → Prop) (g : Grammar) : Shape → Prop
  | .reference name => g.defines name = true ∨ G.missing name
  | .inline rule => ∀ v : Value, v.Due G.spans N → (rule.convert v).Due G.spans N
  | .script request _ => ∀ depthLimit runs,
    (∀ x ∈ runs, G.Yields G.states x (G.Fits (Value.All N))) →
      G.Yields G.states (request.run depthLimit runs []) (G.Fits (Value.Due G.spans N))
  | _ => True

theorem tame_of_combined (hmissing : ∀ name, G.missing name) {g : Grammar} {shape : Shape}
    (h : shape.Combined) : G.Tame N g shape := by
  cases shape with
  | reference name => exact Or.inr (hmissing name)
  | inline rule =>
    have hrule : rule.convert = id := h
    intro v hv
    rwa [hrule]
  | script => exact h.elim
  | _ => trivial

theorem reports_unknownRule {g : Grammar} {name : String} (hfind : g.find? name = none)
    (h : g.defines name = true ∨ G.missing name) : G.Reports (.unknownRule name) := by
  refine ⟨nofun, ?_⟩
  intro name' hname
  cases hname
  rcases h with h | h
  · simp [Grammar.defines, hfind] at h
  · exact h

/-- All shapes but expressions, rules and scripts give what the runs of their parts and of the rules
give, and so do the nodes of tokens if they are as `V` says. -/
theorem yields_body_of (hV : ∀ v : Value, v.All N → V v) {g : Grammar} {shape : Shape}
    (hleaf : ∀ t : Token, G.spans t.span → V (leafNode t))
    (hreference : ∀ name, shape = .reference name → g.defines name = true ∨ G.missing name)
    (hbinary : ∀ s tiers, shape = .binary s tiers →
      G.Yields G.states (binaryBody (run s) tiers) (G.Fits V))
    (hinline : ∀ rule, shape = .inline rule → G.Yields G.states (ruleBody run rule) (G.Fits V))
    (hscript : ∀ request parts, shape = .script request parts →
      G.Yields G.states (request.run g.maxDepth (parts.map run) []) (G.Fits V))
    (hparts : ∀ p ∈ shape.parts, G.Yields G.states (run p) (G.Fits (Value.All N)))
    (hrules : ∀ rule ∈ g.rules, G.Yields G.states (run rule.toSegment) (G.Fits (Value.All N))) :
    G.Yields G.states (shape.body g run) (G.Fits V) := by
  have hall {x : Parse lexer Outcome} (h : G.Yields G.states x (G.Fits (Value.All N))) :
      G.Yields G.states x (G.Fits V) := h.mono fun _ ho => ho.mono hV
  cases shape with
  | exact => exact yields_tokenBody _ fun _ _ => fits_success
  | ofKind => exact yields_tokenBody _ fun _ _ => fits_withData (hV _ (Value.all_toValue _))
  | leaf => exact yields_tokenBody _ fun t ht => fits_withData (hleaf t ht)
  | possibly => exact yields_possiblyBody _ _
  | nothing => exact yields_pure fits_success
  | fail => exact yields_position.bind fun p hp => yields_pure (fits_failure hp)
  | reference name =>
    simp only [Shape.body]
    split
    · next rule hfind => exact hall (hrules rule (Grammar.mem_of_find? hfind).1)
    · next hfind => exact yields_refuse (reports_unknownRule hfind (hreference name rfl))
  | optional s => exact hall (yields_optionalBody (hparts s (by simp [Shape.parts])))
  | choice => exact hall (yields_choiceBody hparts (by simp))
  | delimited =>
    simp only [Shape.parts, List.forall_mem_cons] at hparts
    obtain ⟨ho, hc, hs, he, -⟩ := hparts
    exact hall (yields_delimitedBody ho hc hs he)
  | between =>
    simp only [Shape.parts, List.forall_mem_cons] at hparts
    obtain ⟨ho, hi, hc, -⟩ := hparts
    exact hall (yields_betweenBody ho hi hc)
  | untilMatch =>
    simp only [Shape.parts, List.forall_mem_cons] at hparts
    obtain ⟨ht, he, -⟩ := hparts
    exact hall (yields_untilMatchBody ht he)
  | untilEnd s => exact hall (yields_untilEndBody (hparts s (by simp [Shape.parts])))
  | binary s tiers => exact hbinary s tiers rfl
  | inline rule => exact hinline rule rfl
  | script request parts => exact hscript request parts rfl

/-- What a shape does, if the runs of its parts and of the rules give what is asked for. -/
theorem yields_body (hN : Heritable G.spans N) {g : Grammar} {shape : Shape}
    (hshape : G.Tame N g shape)
    (hparts : ∀ p ∈ shape.parts, G.Yields G.states (run p) (G.Fits (Value.All N)))
    (hrules : ∀ rule ∈ g.rules, G.Yields G.states (run rule.toSegment) (G.Fits (Value.All N))) :
    G.Yields G.states (shape.body g run) (G.Fits (Value.Due G.spans N)) := by
  refine yields_body_of (fun _ => hN.due) (fun t ht => hN.due (hN.leaf ht)) ?_ ?_ ?_ ?_ hparts
    hrules
  · intro name hname
    subst hname
    exact hshape
  · intro s tiers hbinary
    subst hbinary
    have hbody := yields_binaryBody hN (hparts s (by simp [Shape.parts])) tiers
    exact hbody.mono fun _ ho => ho.mono fun _ => hN.due
  · intro rule hinline
    subst hinline
    exact yields_ruleBody hN hshape hparts
  · intro request parts hscript
    subst hscript
    exact hshape _ _ (List.forall_mem_map.2 hparts)

/-! ## Runs and parses -/

variable {g : Grammar}

theorem yields_runRoot {rule : Rule} {Q : Outcome → Prop}
    (h : G.Yields G.states (rule.toSegment.run g) Q) :
    G.Yields G.states (g.runRoot rule) Q := by
  intro I _ hI s hs
  have hr := h I hI s hs
  unfold Grammar.runRoot
  rw [Rule.run_eq]
  cases h : rule.toSegment.run g s with
  | ok o s' => rw [h] at hr; exact hr
  | error e s' =>
    rw [h] at hr
    cases e with
    | error e => exact ⟨Closed.note hr.1 _, hr.2⟩
    | endless => exact hr

/-- A parse gives what the runs of the rules give. -/
theorem yields_parse_of_runs
    (h : ∀ rule ∈ g.rules, G.Yields G.states (rule.toSegment.run g) (G.Fits (Value.All N)))
    (root : String) (hroot : g.defines root = true ∨ G.missing root) :
    G.Yields G.states (g.parse root) (Value.All N) := by
  cases hfind : g.find? root with
  | none =>
    rw [Grammar.parse, hfind]
    exact yields_refuse (reports_unknownRule hfind hroot)
  | some rule =>
    intro I _ hI s hs
    rw [parse_of_find? hfind]
    have hrun := yields_runRoot (h rule (Grammar.mem_of_find? hfind).1)
    refine (hrun.bind fun o ho => ?_) I hI _ (Closed.note hs _)
    unfold concluded
    split
    · exact yields_pure ho.getD
    · exact (yields_complaint ho).bind fun e he => (yields_note _).bind fun _ _ => yields_refuse he

variable (hN : Heritable G.spans N) (hg : g.Throughout (G.Tame N g))

include hN hg

theorem yields_runWithin {s : Segment} (hs : s.Throughout (G.Tame N g)) (levels : Nat) :
    G.Yields G.states (s.runWithin g levels) (G.Fits (Value.All N)) := by
  induction levels generalizing s with
  | zero =>
    rw [Segment.runWithin_zero]
    exact (yields_position.bind fun p hp => yields_refuse (reports_of_place rfl hp)).deeper
  | succ levels ih =>
    rw [Segment.runWithin_succ]
    have hparts : ∀ p ∈ s.shape.parts, _ := fun p hp => ih (hs.part hp)
    have hbody := yields_body hN hs.shape hparts fun rule hr => ih (hg rule hr)
    exact (yields_attempt s.options hbody).deeper

theorem yields_run {s : Segment} (hs : s.Throughout (G.Tame N g)) :
    G.Yields G.states (s.run g) (G.Fits (Value.All N)) :=
  fun I _ hI stream h => yields_runWithin hN hg hs _ I hI stream h

theorem yields_parse (root : String) (hroot : g.defines root = true ∨ G.missing root) :
    G.Yields G.states (g.parse root) (Value.All N) :=
  yields_parse_of_runs (fun rule hrule => yields_run hN hg (hg rule hrule)) root hroot

/-- What is known of a parse from any of the states. -/
theorem all_of_parse {root : String} (hroot : g.defines root = true ∨ G.missing root)
    {s s' : Stream lexer} {v : Value} (hs : G.states s) (h : g.parse root s = .ok v s') :
    v.All N := by
  have hr := yields_parse hN hg root hroot G.states (fun _ h => h) s hs
  rw [h] at hr
  exact hr.2

end

end Survey

end Descent
