import Descent.Proofs.Inside
import Descent.Proofs.LaidRuns

/-!
# Orderly grammars

In an orderly grammar what a run gives lies between the place where it began and the place that it
has come to. Each rule with a kind takes a token of its own, so that no node is empty; and a rule
without one only passes on a tree that is tagged already, or gives fields to the rule around it, so
that no tagged node gets a field that was read outside of its span. The root may be another rule.

* `walks_taggingBody`, `walks_passingBody`: the two kinds of rules.
* `walks_runWithin`: every run of a segment.
* `walks_parse`: what the root gives, a parse gives.
-/
namespace Descent

open Descent.Stream

variable {lexer : Lexer} {text : String} {k : Nat}

/-! ## Rules that keep the order -/

/-- A match of the shape is a token. -/
def Shape.takesToken : Shape → Bool
  | .exact .. | .ofKind _ | .leaf _ => true
  | _ => false

/-- A match of the shape gives no data. -/
def Shape.isSilent : Shape → Bool
  | .exact .. | .possibly .. | .nothing | .fail _ => true
  | _ => false

/-- The segments of a rule that may give data. -/
def givers (segments : List Segment) : List Segment := segments.filter (!·.shape.isSilent)

/-- A rule with a kind has a token for its node. A rule without one adds nothing to a node that
another rule has tagged: either one segment only gives data, or all that do have keys. -/
def Rule.Orderly (rule : Rule) : Prop :=
  match rule.kind with
  | some kind => kind ≠ binaryKind ∧ ∃ s ∈ rule.segments, s.shape.takesToken = true
  | none =>
    (givers rule.segments).length ≤ 1 ∨
      rule.nesting ≠ .merge ∧ ∀ s ∈ givers rule.segments, s.options.key.isSome = true

/-- Rules are orderly, the root is not referred to, and no segment has a mode of its own. -/
def Shape.Orderly (root : String) (shape : Shape) : Prop :=
  (∀ p ∈ shape.parts, p.options.nesting = .inherit) ∧
    match shape with
    | .reference name => name ≠ root
    | .inline rule => rule.convert = id ∧ rule.Orderly
    | .script .. => False
    | _ => True

/-- All rules but the root are orderly. -/
def Grammar.Orderly (root : String) (g : Grammar) : Prop :=
  ∀ rule ∈ g.rules, rule.name ≠ root → rule.toSegment.Throughout (Shape.Orderly root)

/-- What a match of the segment gives between two places. -/
structure Segment.Gives (S : Nat → Nat → Span → Prop) (s : Segment) (i j : Nat) (o : Outcome) :
    Prop where
  laid : o.Laid S i j
  key : s.options.key.isSome = true → o.key.isSome = true
  token : s.shape.takesToken = true → i < j
  silent : s.shape.isSilent = true → o.data? = none

/-! ### Drafts of orderly rules -/

section

variable {S : Nat → Nat → Span → Prop} {i j : Nat} {d d' : Draft} {s : Segment}
  {segments : List Segment} {o : Outcome} {policy : Nesting} {position : Position}

/-- The draft of a rule with a kind that began at `k`, before it goes on with these segments. -/
structure Tagging (S : Nat → Nat → Span → Prop) (k i : Nat) (d : Draft) (segments : List Segment) :
    Prop where
  le : k ≤ i
  laid : d.Laid S k i
  token : k < i ∨ ∃ s ∈ segments, s.shape.takesToken = true

theorem Tagging.add (h : Tagging S k i d (s :: segments)) (hij : i ≤ j) (hs : s.Gives S i j o)
    (hd : d.add o policy position = .ok d') : Tagging S k j d' segments := by
  refine ⟨Nat.le_trans h.le hij, h.laid.add h.le hij hs.laid.data hd, ?_⟩
  rcases h.token with hlt | ⟨t, ht, htakes⟩
  · exact Or.inl (Nat.lt_of_lt_of_le hlt hij)
  · rcases List.mem_cons.1 ht with rfl | ht
    · exact Or.inl (Nat.lt_of_le_of_lt h.le (hs.token htakes))
    · exact Or.inr ⟨t, ht, htakes⟩

/-- The draft of a rule without a kind: it is blank still, or it has got all that it gets, or it
gets fields only. -/
inductive Passing (S : Nat → Nat → Span → Prop) (policy : Nesting) (k i : Nat) (d : Draft)
    (segments : List Segment) : Prop
  | blank (hd : d = {}) (hone : (givers segments).length ≤ 1)
  | done (hd : d.Whole S k i) (hnone : givers segments = [])
  | fields (hd : d.Laid S k i) (hkind : d.node.kind = none) (hspan : d.node.span = none)
    (hpolicy : policy ≠ .merge) (hkeys : ∀ s ∈ givers segments, s.options.key.isSome = true)

theorem Passing.whole (h : Passing S policy k i d segments) : d.Whole S k i := by
  cases h with
  | blank hd => subst hd; exact .of_laid .empty rfl rfl
  | done hd => exact hd
  | fields hd hkind hspan => exact .of_laid hd hkind hspan

theorem givers_cons (s : Segment) (segments : List Segment) :
    givers (s :: segments) =
      if s.shape.isSilent then givers segments else s :: givers segments := by
  cases h : s.shape.isSilent <;> simp [givers, h]

/-- A segment without data leaves the draft as it is. -/
theorem Passing.skip (h : Passing S policy k i d (s :: segments)) (hij : i ≤ j)
    (hsilent : s.shape.isSilent = true) : Passing S policy k j d segments := by
  have hgivers := givers_cons s segments
  rw [if_pos hsilent] at hgivers
  cases h with
  | blank hd hone => exact .blank hd (hgivers ▸ hone)
  | done hd hnone => exact .done (hd.mono hij) (hgivers ▸ hnone)
  | fields hd hkind hspan hpolicy hkeys =>
    exact .fields (hd.mono hij) hkind hspan hpolicy (hgivers ▸ hkeys)

theorem Passing.add (h : Passing S policy k i d (s :: segments)) (hki : k ≤ i) (hij : i ≤ j)
    (hs : s.Gives S i j o) (hd : d.add o policy position = .ok d') :
    Passing S policy k j d' segments := by
  cases hsilent : s.shape.isSilent with
  | true =>
    rw [Draft.add_of_data?_eq_none (hs.silent hsilent)] at hd
    exact Except.ok.inj hd ▸ h.skip hij hsilent
  | false =>
    have hgivers := givers_cons s segments
    rw [hsilent] at hgivers
    cases h with
    | blank hblank hone =>
      subst hblank
      -- This is the one segment that gives data.
      rw [hgivers] at hone
      have hlast : givers segments = [] :=
        List.length_eq_zero_iff.1 (Nat.le_zero.1 (Nat.le_of_succ_le_succ hone))
      exact .done (.add (Nat.le_trans hki hij)
        (fun v hv => (hs.laid.data v hv).mono hki (Nat.le_refl j)) hd) hlast
    | done _ hnone =>
      rw [hgivers] at hnone
      cases hnone
    | fields hlaid hkind hspan hpolicy hkeys =>
      rw [hgivers, if_neg Bool.false_ne_true, List.forall_mem_cons] at hkeys
      have hnest : o.nesting.under policy ≠ .merge := by
        rw [hs.laid.nesting]
        exact hpolicy
      have htag := Draft.tag_of_add (hs.key hkeys.1) hnest hd
      exact .fields (hlaid.add hki hij hs.laid.data hd) (htag.1.trans hkind) (htag.2.trans hspan)
        hpolicy hkeys.2

end

/-! ### Runs of orderly rules -/

section

variable {run : Runner lexer} {policy : Nesting} {rule : Rule}

/-- Segments in a row keep what one of them keeps. -/
theorem walks_gather {P : Segment → Nat → Nat → Outcome → Prop}
    {I : Nat → Draft → List Segment → Prop} {segments : List Segment}
    (hrun : ∀ s ∈ segments, ∀ k, Walks text k (run s) fun j o => o.isMatch = true → P s k j o)
    (hstep : ∀ i j d s rest o position d', I i d (s :: rest) → i ≤ j → P s i j o →
      d.add o policy position = .ok d' → I j d' rest) {d : Draft} (hd : I k d segments) :
    Walks text k (gather run policy d segments) fun j gathered =>
      (∀ d', gathered = .ok d' → I j d' []) ∧ ∀ o, gathered = .error o → o.isMatch = false := by
  induction segments generalizing d k with
  | nil => exact walks_pure ⟨fun d' hd' => Except.ok.inj hd' ▸ hd, nofun⟩
  | cons s rest ih =>
    rw [List.forall_mem_cons] at hrun
    refine (hrun.1 k).bind fun j o hkj ho => ?_
    split
    · next hm =>
      refine walks_get_bind fun t _ => ?_
      cases hadd : d.add o policy t.lastEnd with
      | error e => exact Walks.bind (walks_refuse e) fun _ d' _ (h : False) => h.elim
      | ok d' =>
        have hd' : Walks text j (Parse.ofExcept (.ok d') : Parse lexer Draft)
            fun i a => I i a rest := walks_pure (hstep k j d s rest o _ d' hd hkj (ho hm) hadd)
        exact hd'.bind fun i a _ ha => ih hrun.2 ha
    · next hm =>
      refine walks_pure ⟨nofun, fun o' ho' => ?_⟩
      cases ho'
      simpa using hm

/-- What a rule makes of the draft that it ends with. -/
theorem walks_ruleBody (hconvert : rule.convert = id) {I : Nat → Draft → Prop}
    (h : Walks text k (gather run rule.nesting {} rule.segments) fun j gathered =>
      (∀ d, gathered = .ok d → I j d) ∧ ∀ o, gathered = .error o → o.isMatch = false) :
    Walks text k (ruleBody run rule) fun j o => o.isMatch = true →
      o.nesting = .inherit ∧ ∃ d, I j d ∧ o.data? = d.close rule.kind := by
  refine h.bind fun j gathered _ ⟨hok, herror⟩ => ?_
  cases gathered with
  | ok d =>
    refine walks_pure fun _ => ?_
    rw [hconvert]
    refine ⟨?_, d, hok d rfl, ?_⟩ <;> cases d.close rule.kind <;> rfl
  | error o =>
    refine walks_pure fun hm => ?_
    rw [herror o rfl] at hm
    cases hm

variable (hrun : ∀ s ∈ rule.segments, ∀ k, Walks text k (run s) fun j o =>
  o.isMatch = true → s.Gives (lexer.Covers text) k j o) (hconvert : rule.convert = id)

include hrun hconvert

/-- A rule that tags what it gives leaves the span open, and has passed a token. -/
theorem walks_taggingBody {kind : String} (hkind : rule.kind = some kind) (hne : kind ≠ binaryKind)
    (htoken : ∃ s ∈ rule.segments, s.shape.takesToken = true) :
    Walks text k (ruleBody run rule) fun j o => o.isMatch = true →
      o.nesting = .inherit ∧ k < j ∧ ∀ v, o.data? = some v → ∀ span, lexer.Covers text k j span →
        (Outcome.located span v).Laid (lexer.Covers text) k j := by
  have hstart : Tagging (lexer.Covers text) k k {} rule.segments :=
    ⟨Nat.le_refl k, .empty, Or.inr htoken⟩
  refine (walks_ruleBody hconvert (walks_gather (I := Tagging (lexer.Covers text) k) hrun
    (fun _ _ _ _ _ _ _ _ hd hij hs hadd => hd.add hij hs hadd) hstart)).mono
    fun j o _ h hm => ?_
  obtain ⟨hnesting, d, hd, hdata⟩ := h hm
  refine ⟨hnesting, hd.token.resolve_right (by simp), fun v hv span hspan => ?_⟩
  rw [hdata, hkind] at hv
  exact hd.laid.close hne hv hspan

/-- A rule without a kind gives what its segments have laid out. -/
theorem walks_passingBody (hkind : rule.kind = none) (horderly : rule.Orderly) :
    Walks text k (ruleBody run rule) fun j o =>
      o.isMatch = true → o.Laid (lexer.Covers text) k j := by
  have hstart : Passing (lexer.Covers text) rule.nesting k k {} rule.segments := by
    unfold Rule.Orderly at horderly
    rw [hkind] at horderly
    rcases horderly with hone | ⟨hpolicy, hkeys⟩
    · exact .blank rfl hone
    · exact .fields .empty rfl rfl hpolicy hkeys
  refine (walks_ruleBody hconvert (walks_gather (I := fun i d segments => k ≤ i ∧
    Passing (lexer.Covers text) rule.nesting k i d segments) hrun (fun _ _ _ _ _ _ _ _ hd hij hs
      hadd => ⟨Nat.le_trans hd.1 hij, hd.2.add hd.1 hij hs hadd⟩) ⟨Nat.le_refl k, hstart⟩)).mono
    fun j o _ h hm => ?_
  obtain ⟨hnesting, d, ⟨-, hd⟩, hdata⟩ := h hm
  exact ⟨fun v hv => hd.whole.close (by rw [← hkind, ← hdata, hv]), hnesting⟩

end

/-! ## Segments -/

section

variable {run : Runner lexer} {root : String} {g : Grammar}

/-- What a match of the body of a segment gives; the span of what a rule has tagged is left open. -/
structure Shape.Gives (S : Nat → Nat → Span → Prop) (shape : Shape) (i j : Nat) (o : Outcome) :
    Prop where
  data : ∀ v, o.data? = some v →
    v.Laid S i j ∨ i < j ∧ ∀ span, S i j span → (Outcome.located span v).Laid S i j
  nesting : o.nesting = .inherit
  token : shape.takesToken = true → i < j
  silent : shape.isSilent = true → o.data? = none

/-- A match without data lies anywhere. -/
theorem Shape.gives_success {S : Nat → Nat → Span → Prop} {shape : Shape} {i j : Nat}
    (htoken : shape.takesToken = true → i < j) : shape.Gives S i j .success :=
  ⟨fun _ hv => (by cases hv), rfl, htoken, fun _ => rfl⟩

/-- What a shape gives, if the runs of its parts and of the rules give what they should. -/
theorem walks_body {shape : Shape} (hshape : shape.Orderly root)
    (hparts : ∀ p ∈ shape.parts, ∀ k, Walks text k (run p) fun j o =>
      o.isMatch = true → p.Gives (lexer.Covers text) k j o)
    (hrules : ∀ rule ∈ g.rules, rule.name ≠ root → Lays text (run rule.toSegment)) :
    Walks text k (shape.body g run) fun j o =>
      o.isMatch = true → shape.Gives (lexer.Covers text) k j o := by
  have hlays (p : Segment) (hp : p ∈ shape.parts) : Lays text (run p) :=
    fun k => (hparts p hp k).mono fun _ _ _ h hm => (h hm).laid
  -- For most shapes there is no more to say than where their data lies.
  have hof {x : Parse lexer Outcome} (htakes : shape.takesToken = false)
      (hsilent : shape.isSilent = false) (hx : Lays text x) : Walks text k x fun j o =>
        o.isMatch = true → shape.Gives (lexer.Covers text) k j o := by
    exact (hx k).mono fun j o _ h hm =>
      ⟨fun v hv => Or.inl ((h hm).data v hv), (h hm).nesting,
        fun h => absurd (htakes.symm.trans h) Bool.false_ne_true,
        fun h => absurd (hsilent.symm.trans h) Bool.false_ne_true⟩
  cases shape with
  | exact kind expected =>
    refine (walks_tokenBody _).mono fun j o _ h hm => ?_
    obtain ⟨t, rfl, -, rfl⟩ := h hm
    exact Shape.gives_success fun _ => Nat.lt_succ_self k
  | ofKind kind =>
    refine (walks_tokenBody _).mono fun j o _ h hm => ?_
    obtain ⟨t, rfl, -, rfl⟩ := h hm
    refine ⟨fun v hv => ?_, rfl, fun _ => Nat.lt_succ_self k,
      fun h => absurd h Bool.false_ne_true⟩
    cases hv
    exact Or.inl (Value.laid_toValue _)
  | leaf kind =>
    refine (walks_tokenBody _).mono fun j o _ h hm => ?_
    obtain ⟨t, rfl, ht, rfl⟩ := h hm
    refine ⟨fun v hv => ?_, rfl, fun _ => Nat.lt_succ_self k,
      fun h => absurd h Bool.false_ne_true⟩
    cases hv
    exact Or.inl (laid_leafNode ⟨k, t, t, rfl, Nat.le_refl k, ht, ht, rfl⟩)
  | possibly kind expected =>
    refine (walks_possiblyBody kind expected).mono fun j o _ h _ => ?_
    subst h
    exact Shape.gives_success fun h => absurd h Bool.false_ne_true
  | nothing =>
    exact walks_pure fun _ => Shape.gives_success fun h => absurd h Bool.false_ne_true
  | fail message =>
    exact walks_position.bind fun _ _ _ _ => walks_pure fun hm => by cases hm
  | reference name =>
    simp only [Shape.body]
    split
    · next rule hfind =>
      obtain ⟨hmem, rfl⟩ := Grammar.mem_of_find? hfind
      exact hof rfl rfl (hrules rule hmem hshape.2)
    · exact walks_refuse _
  | optional s => exact hof rfl rfl (lays_optionalBody (hlays s (by simp [Shape.parts])))
  | choice alternatives => exact hof rfl rfl (lays_choiceBody hlays fun _ ho => by cases ho)
  | delimited opening closing separator element =>
    simp only [Shape.parts, List.forall_mem_cons] at hlays
    obtain ⟨ho, hc, hs, he, -⟩ := hlays
    exact hof rfl rfl (lays_delimitedBody ho hc hs he)
  | between opening content closing =>
    simp only [Shape.parts, List.forall_mem_cons] at hlays
    obtain ⟨ho, hi, hc, -⟩ := hlays
    exact hof rfl rfl (lays_betweenBody ho hi hc)
  | untilMatch terminator element =>
    simp only [Shape.parts, List.forall_mem_cons] at hlays
    obtain ⟨ht, he, -⟩ := hlays
    exact hof rfl rfl (lays_untilMatchBody ht he)
  | untilEnd s => exact hof rfl rfl (lays_untilEndBody (hlays s (by simp [Shape.parts])))
  | binary s tiers => exact hof rfl rfl (lays_binaryBody (hlays s (by simp [Shape.parts])) tiers)
  | inline rule =>
    obtain ⟨-, hconvert, horderly⟩ := hshape
    cases hkind : rule.kind with
    | none => exact hof rfl rfl fun _ => walks_passingBody hparts hconvert hkind horderly
    | some kind =>
      have htagging := horderly
      rw [Rule.Orderly, hkind] at htagging
      refine (walks_taggingBody hparts hconvert hkind htagging.1 htagging.2).mono
        fun j o _ h hm => ?_
      obtain ⟨hnesting, hpast, hdata⟩ := h hm
      exact ⟨fun v hv => Or.inr ⟨hpast, hdata v hv⟩, hnesting,
        fun h => absurd h Bool.false_ne_true, fun h => absurd h Bool.false_ne_true⟩
  | script request => exact hshape.2.elim

/-- What the body of a segment gives with fewer levels, a run of it gives with the span of the
tokens that it has passed. -/
theorem walks_levels (hkeeps : lexer.KeepsSpans) {s : Segment} {levels : Nat}
    {P : Nat → Outcome → Prop} (h : ∀ m < levels, Walks text k
      (s.shape.body g (Segment.runWithin g m) : Parse lexer Outcome) P) :
    Walks text k (s.runWithin g levels : Parse lexer Outcome) fun j o => o.isMatch = true →
      ∃ inside span, P j inside ∧ inside.isMatch = true ∧
        (k < j → lexer.Covers text k j span) ∧
        o.data? = inside.data?.map (Outcome.located span) ∧
        o.key = s.options.key.or inside.key ∧
        o.nesting = if s.options.nesting = .inherit then inside.nesting else s.options.nesting := by
  cases levels with
  | zero =>
    rw [Segment.runWithin_zero]
    exact Walks.deeper walks_refused
  | succ levels =>
    rw [Segment.runWithin_succ]
    exact (walks_attempt hkeeps s.options (h levels (Nat.lt_succ_self levels))).deeper

/-- What a run of a segment in an orderly grammar gives lies between where it began and where it has
come to. -/
theorem walks_runWithin (hkeeps : lexer.KeepsSpans) (hg : g.Orderly root) {s : Segment}
    (hs : s.Throughout (Shape.Orderly root)) (hmode : s.options.nesting = .inherit)
    (levels : Nat) : Walks text k (s.runWithin g levels : Parse lexer Outcome) fun j o =>
      o.isMatch = true → s.Gives (lexer.Covers text) k j o := by
  induction levels using Nat.strongRecOn generalizing s k with
  | ind levels ih =>
    have hbody (m : Nat) (hm : m < levels) : Walks text k
        (s.shape.body g (Segment.runWithin g m) : Parse lexer Outcome) fun j o =>
          o.isMatch = true → s.shape.Gives (lexer.Covers text) k j o := by
      refine walks_body hs.shape (fun p hp k => ih m hm (hs.part hp) (hs.shape.1 p hp)) ?_
      intro rule hr hroot k
      exact (ih m hm (hg rule hr hroot) rfl).mono fun _ _ _ h hm => (h hm).laid
    refine (walks_levels hkeeps hbody).mono fun j o _ h hm => ?_
    obtain ⟨inside, span, hgives, hmi, hspan, hdata, hkey, hnesting⟩ := h hm
    have hgives := hgives hmi
    refine ⟨⟨fun v hv => ?_, ?_⟩, fun hk => ?_, hgives.token, fun hsilent => ?_⟩
    · rw [hdata] at hv
      obtain ⟨w, hw, rfl⟩ := Option.map_eq_some_iff.1 hv
      rcases hgives.data w hw with hlaid | ⟨hlt, hlaid⟩
      · rwa [hlaid.located_eq]
      · exact hlaid span (hspan hlt)
    · rw [hnesting, if_pos hmode, hgives.nesting]
    · rw [hkey, Option.isSome_or, hk, Bool.true_or]
    · rw [hdata, hgives.silent hsilent]
      rfl

/-! ## Parses -/

/-- A parse that comes to a value gives the data of a match of its root. -/
theorem walks_parse {rule : Rule} (hfind : g.find? root = some rule) {P : Nat → Outcome → Prop}
    (h : ∀ levels, Walks text k (rule.toSegment.runWithin g levels : Parse lexer Outcome)
      fun j o => o.isMatch = true → P j o) :
    Walks text k (g.parse root : Parse lexer Value) fun j v =>
      ∃ o, P j o ∧ v = o.data?.getD .null := by
  have hrun : Walks text k (g.runRoot rule : Parse lexer Outcome)
      fun j o => o.isMatch = true → P j o := by
    intro s o s' hs hx
    unfold Grammar.runRoot at hx
    rw [Rule.run_eq] at hx
    split at hx <;> cases hx
    next hx => exact h _ s o s' hs hx
  have hparse : Walks text k (g.runRoot rule >>= concluded root : Parse lexer Value)
      fun j v => ∃ o, P j o ∧ v = o.data?.getD .null := by
    refine hrun.bind fun j o _ ho => ?_
    unfold concluded
    split
    · next hm => exact walks_pure ⟨o, ho hm, rfl⟩
    · intro s v s' _ hx
      obtain ⟨e, t, -, hx⟩ := ok_of_bind hx
      obtain ⟨-, t', -, hx⟩ := ok_of_bind hx
      cases hx
  intro s v s' hs hx
  rw [parse_of_find? hfind] at hx
  exact hparse _ v s' (hs.record _) hx

end

end Descent
