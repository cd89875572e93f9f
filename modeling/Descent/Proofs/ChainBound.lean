import Descent.Proofs.Climbing
import Descent.Proofs.LongChains
import Descent.Proofs.SurveyRuns

/-!
# Chains and levels

Every level of nesting makes chains of right operands longer: a rule by one node, and an expression
by at most one operator of each tier that groups to the left. So the depth limit bounds them. It
does not bound the operators that group to the right, which take no levels.

* `delivers_binaryBody`, `delivers_ruleBody`: what one level adds.
* `yields_levels`: what all of them add.
* `parse_chains`: in the tree of a parse no chain has more than a number of nodes that depends on
  the grammar only, but for the operators that group to the right.
-/
namespace Descent

open Descent.Stream

variable {lexer : Lexer} {V : Value → Prop} {N : Node → Prop}

/-- Wherever the operation begins, the data that it gives is as `V` says. -/
def Delivers (x : Parse lexer Outcome) (V : Value → Prop) : Prop :=
  ∀ s o s', x s = .ok o s' → ∀ v, o.data? = some v → V v

/-- The operation delivers data as `V` says, and leads out of no states that the stream's operations
do not lead out of. -/
abbrev YieldsData (x : Parse lexer Outcome) (V : Value → Prop) : Prop :=
  (Survey.blank : Survey lexer).Yields Survey.blank.states x ((Survey.blank : Survey lexer).Fits V)

theorem Delivers.yieldsData {x : Parse lexer Outcome} (h : Delivers x V)
    (hkeeps : ∀ (I : Stream lexer → Prop) [Closed I], Keeps I x) : YieldsData x V := by
  intro I _ _ s hs
  have hkept := (hkeeps I s hs).1
  cases hx : x s with
  | ok o s' =>
    rw [hx] at hkept
    exact ⟨hkept, h s o s' hx, fun _ _ => trivial⟩
  | error e s' =>
    rw [hx] at hkept
    exact ⟨hkept, fun _ _ => ⟨fun _ _ => trivial, fun _ _ => trivial⟩⟩

theorem YieldsData.delivers {x : Parse lexer Outcome} (h : YieldsData x V) : Delivers x V := by
  intro s o s' hx
  have hr := h (fun _ => True) (fun _ _ => trivial) s trivial
  rw [hx] at hr
  exact hr.2.data

theorem Outcome.isMatch_of_data? {o : Outcome} {v : Value} (h : o.data? = some v) :
    o.isMatch = true := by
  unfold Outcome.data? at h
  unfold Outcome.isMatch
  split at h <;> simp_all

/-! ## Expressions -/

section

variable {run : Parse lexer Outcome} {tiers : List Tier} {s s' : Stream lexer}

theorem ReadsOperand.all (hrun : Delivers run (Value.All N)) {operand : Operand}
    (h : ReadsOperand run s operand s') : operand.data.All N := by
  obtain ⟨seen, o, -, hr, -, hdata, -⟩ := h
  rw [hdata]
  cases hd : o.data? with
  | none => exact Value.all_null
  | some v => exact hrun seen o s' hr v hd

theorem ReadsRow.all (hrun : Delivers run (Value.All N)) {row : List (Operator × Operand)}
    (h : ReadsRow run tiers s row s') :
    ∀ p ∈ row, tierOf? tiers p.1.token = some p.1.tier ∧ p.2.data.All N := by
  induction h with
  | done => exact nofun
  | more _ ht ho _ ih => exact List.forall_mem_cons.2 ⟨⟨ht, ho.all hrun⟩, ih⟩

variable {words : List String} {bound : Nat}

/-- The operators of an expression make the chains in its operands longer by one for each tier. -/
theorem delivers_binaryBody (hwords : GroupsRightIn words tiers)
    (hrun : Delivers run (Value.All (Node.Within words bound))) :
    Delivers (binaryBody run tiers) (Value.All (Node.Within words (bound + tiers.length))) := by
  intro s o s' h v hv
  have hm := Outcome.isMatch_of_data? hv
  obtain ⟨first, s₁, ho, hb⟩ := operandThen_match h hm
  rw [bind_apply, get_apply] at hb
  have hleaf : Grown tiers none (.leaf first) s₁ := grown_leaf ho
  obtain ⟨tree, row, hfirst, hrest, hg, -, hdata, hrow⟩ := expressionFrom_match hleaf hb hm
  obtain rfl : tree.first = first := hfirst
  obtain rfl : tree.rest = row := hrest
  obtain rfl : tree.value = v := Option.some.inj (hdata.symm.trans hv)
  exact OpTree.all_within hwords hg.grouped ⟨ho.all hrun, hrow.all hrun⟩

end

/-! ## Rules -/

section

variable {run : Runner lexer} {words : List String} {bound extra : Nat}

theorem filled_of_gather {policy : Nesting} {segments : List Segment}
    (h : ∀ s ∈ segments, Delivers (run s) (Value.All N)) {d : Draft} (hd : d.Filled N)
    {s s' : Stream lexer} {r : Except Outcome Draft}
    (hr : gather run policy d segments s = .ok r s') :
    (∀ d', r = .ok d' → d'.Filled N) ∧ ∀ o, r = .error o → o.isMatch = false := by
  induction segments generalizing d s with
  | nil =>
    cases hr
    exact ⟨fun d' hd' => Except.ok.inj hd' ▸ hd, nofun⟩
  | cons segment rest ih =>
    rw [List.forall_mem_cons] at h
    obtain ⟨o, s₁, ho, hr⟩ := ok_of_bind hr
    split at hr
    · obtain ⟨t, _, hget, hr⟩ := ok_of_bind hr
      cases hget
      obtain ⟨d', s₃, hadd, hr⟩ := ok_of_bind hr
      refine ih h.2 (d := d') ?_ hr
      cases hd' : d.add o policy s₁.lastEnd with
      | error e => rw [hd'] at hadd; cases hadd
      | ok d'' =>
        rw [hd'] at hadd
        cases hadd
        exact hd.add (h.1 s o s₁ ho) hd'
    · next hm =>
      cases hr
      refine ⟨nofun, ?_⟩
      intro o' ho'
      cases ho'
      simpa using hm

/-- A rule makes the chains in its fields longer by one, and its conversion by what it adds. -/
theorem delivers_ruleBody {rule : Rule}
    (hconvert : ∀ (bound : Nat) (v : Value), v.All (Node.Within words bound) →
      (rule.convert v).All (Node.Within words (bound + extra)))
    (h : ∀ s ∈ rule.segments, Delivers (run s) (Value.All (Node.Within words bound))) :
    Delivers (ruleBody run rule) (Value.All (Node.Within words (bound + 1 + extra))) := by
  intro s o s' hr v hv
  obtain ⟨r, s₁, hgather, hr⟩ := ok_of_bind hr
  obtain ⟨hfilled, hfailed⟩ := filled_of_gather h Draft.Filled.empty hgather
  cases r with
  | error o' =>
    cases hr
    have hm := hfailed o rfl
    rw [Outcome.isMatch_of_data? hv] at hm
    cases hm
  | ok d =>
    cases hr
    rw [Outcome.mapData_ofData?, Outcome.data?_ofData?] at hv
    obtain ⟨w, hw, rfl⟩ := Option.map_eq_some_iff.1 hv
    exact hconvert _ w (all_within_close (hfilled d rfl) hw)

end

/-! ## Shapes -/

/-- The tiers of the shape, if it is that of an expression. -/
def Shape.tiers : Shape → List Tier
  | .binary _ tiers => tiers
  | _ => []

/-- Operators of the shape that group to the right are among the words, and what is written by hand
makes chains longer by no more than `extra`. -/
def Shape.Lengthens (words : List String) (extra : Nat) : Shape → Prop
  | .binary _ tiers => GroupsRightIn words tiers
  | .inline rule => ∀ (bound : Nat) (v : Value), v.All (Node.Within words bound) →
      (rule.convert v).All (Node.Within words (bound + extra))
  | .script request _ => ∀ (lexer : Lexer) (depthLimit : Nat) (runs : List (Parse lexer Outcome))
      (bound : Nat), (∀ x ∈ runs, Delivers x (Value.All (Node.Within words bound))) →
        Delivers (request.run depthLimit runs []) (Value.All (Node.Within words (bound + extra)))
  | _ => True

/-- Where nothing is written by hand nothing is added. -/
theorem Shape.lengthens_of_combined {words : List String} {shape : Shape} (h : shape.Combined)
    (hwords : GroupsRightIn words shape.tiers) : shape.Lengthens words 0 := by
  cases shape with
  | binary => exact hwords
  | inline rule =>
    have hconvert : rule.convert = id := h
    intro bound v hv
    rwa [hconvert]
  | script => exact h.elim
  | _ => trivial

/-- A list has a greatest bound, if its members have bounds. -/
theorem exists_bound {α : Type} {P : α → Nat → Prop} (hmono : ∀ a m n, P a m → m ≤ n → P a n)
    (l : List α) (h : ∀ a ∈ l, ∃ n, P a n) : ∃ n, ∀ a ∈ l, P a n := by
  induction l with
  | nil => exact ⟨0, nofun⟩
  | cons a rest ih =>
    rw [List.forall_mem_cons] at h
    obtain ⟨m, hm⟩ := h.1
    obtain ⟨n, hn⟩ := ih h.2
    refine ⟨max m n, List.forall_mem_cons.2 ⟨hmono a m _ hm (Nat.le_max_left m n), ?_⟩⟩
    intro b hb
    exact hmono b n _ (hn b hb) (Nat.le_max_right m n)

/-- The expressions in a grammar have a greatest number of tiers. -/
theorem Grammar.exists_most_tiers (g : Grammar) :
    ∃ most, g.Throughout fun shape => shape.tiers.length ≤ most := by
  have hmono (s : Segment) (m n : Nat) (h : s.Throughout fun shape => shape.tiers.length ≤ m)
      (hle : m ≤ n) : s.Throughout fun shape => shape.tiers.length ≤ n :=
    h.mono fun _ hm => Nat.le_trans hm hle
  have hsegment (s : Segment) : ∃ n, s.Throughout fun shape => shape.tiers.length ≤ n := by
    induction s using Segment.inductionOn with
    | h s ih =>
      obtain ⟨n, hn⟩ := exists_bound hmono s.shape.parts ih
      refine ⟨max s.shape.tiers.length n, Segment.throughout_iff.2 ⟨Nat.le_max_left _ _, ?_⟩⟩
      exact fun p hp => hmono p n _ (hn p hp) (Nat.le_max_right _ _)
  obtain ⟨most, hmost⟩ := exists_bound (fun rule : Rule => hmono rule.toSegment) g.rules
    fun rule _ => hsegment rule.toSegment
  exact ⟨most, hmost⟩

/-! ## Levels -/

section

variable {words : List String} {extra most : Nat} {g : Grammar}

/-- What a shape adds to what the runs of its parts and of the rules give. -/
theorem yieldsData_body {shape : Shape} (hshape : shape.Lengthens words extra)
    (htiers : shape.tiers.length ≤ most) {run : Runner lexer} {bound : Nat}
    (hkeeps : ∀ (I : Stream lexer → Prop) [Closed I] (s : Segment), Keeps I (run s))
    (hparts : ∀ p ∈ shape.parts, YieldsData (run p) (Value.All (Node.Within words bound)))
    (hrules : ∀ rule ∈ g.rules,
      YieldsData (run rule.toSegment) (Value.All (Node.Within words bound))) :
    YieldsData (shape.body g run)
      (Value.All (Node.Within words (bound + (most + extra + 1)))) := by
  have hmore {x : Parse lexer Outcome} {least : Nat}
      (h : YieldsData x (Value.All (Node.Within words least)))
      (hle : least ≤ bound + (most + extra + 1)) :
      YieldsData x (Value.All (Node.Within words (bound + (most + extra + 1)))) :=
    h.mono fun _ ho => ho.mono fun _ hv => hv.within_mono hle
  refine Survey.yields_body_of (fun v hv => hv.within_mono (Nat.le_add_right _ _)) ?_
    (fun _ _ => Or.inr trivial) ?_ ?_ ?_ hparts hrules
  · intro t _
    have hnode : (leafNode t).All (Node.Within words (0 + 1)) := by
      refine Value.all_within_node ?_
      intro p hp
      rcases Fields.mem_insert hp with rfl | hp
      · exact Value.all_toValue _
      · cases hp
    exact hnode.within_mono (by omega)
  · intro s tiers hbinary
    subst hbinary
    have htiers : tiers.length ≤ most := htiers
    have hbody := delivers_binaryBody hshape (hparts s (by simp [Shape.parts])).delivers
    exact hmore (hbody.yieldsData fun I _ => keeps_binaryBody (hkeeps I s) tiers) (by omega)
  · intro rule hinline
    subst hinline
    have hbody := delivers_ruleBody hshape fun s hs => (hparts s hs).delivers
    exact hmore (hbody.yieldsData fun I _ => keeps_ruleBody (hkeeps I) rule) (by omega)
  · intro request parts hscript
    subst hscript
    have hbody := hshape lexer g.maxDepth (parts.map run) bound
      (List.forall_mem_map.2 fun p hp => (hparts p hp).delivers)
    exact hmore (hbody.yieldsData fun I _ => keeps_script request _
      (List.forall_mem_map.2 fun p _ => hkeeps I p) [] (by simp)) (by omega)

/-- What the run of a segment gives with this many levels left. -/
theorem yieldsData_runWithin {Q : Shape → Prop}
    (hQ : ∀ shape, Q shape → shape.Lengthens words extra ∧ shape.tiers.length ≤ most)
    (hg : g.Throughout Q) {s : Segment} (hs : s.Throughout Q) (levels : Nat) :
    YieldsData (s.runWithin g levels : Parse lexer Outcome)
      (Value.All (Node.Within words (levels * (most + extra + 1)))) := by
  induction levels generalizing s with
  | zero =>
    rw [Segment.runWithin_zero]
    refine (Survey.yields_position.bind fun p hp => Survey.yields_refuse ?_).deeper
    exact Survey.reports_of_place rfl hp
  | succ levels ih =>
    rw [Segment.runWithin_succ, Nat.succ_mul]
    obtain ⟨hshape, htiers⟩ := hQ _ hs.shape
    have hkeeps (I : Stream lexer → Prop) [Closed I] (s : Segment) :
        Keeps I (s.runWithin g levels) := Segment.keeps_runWithin g levels s
    have hbody := yieldsData_body hshape htiers hkeeps (fun p hp => ih (hs.part hp))
      fun rule hr => ih (hg rule hr)
    have hdue := hbody.mono fun _ ho =>
      ho.mono fun _ hv => Value.All.within_due (S := (Survey.blank : Survey lexer).spans) hv
    exact (Survey.yields_attempt s.options hdue).deeper

end

/-! ## Parses -/

/-- In the tree of a parse no chain of right operands has more nodes than a number that depends on
the grammar only, but for the nodes of the operators that group to the right: for each level of
nesting there can be one operator of each tier, one node of a rule, and what is added by hand. Where
no operator groups to the right there is nothing to leave out, and the chain itself is bounded. -/
theorem parse_chains {g : Grammar} {words : List String} {extra : Nat}
    (hg : g.Throughout (Shape.Lengthens words extra)) :
    (∃ most, g.Throughout fun shape => shape.tiers.length ≤ most) ∧
    ∀ most, (g.Throughout fun shape => shape.tiers.length ≤ most) →
      ∀ (lexer : Lexer) (root : String) (s s' : Stream lexer) (v : Value),
        g.parse root s = .ok v s' → ∀ ns : List Node, (∀ n ∈ ns, n.Inside v) → Rightward ns →
          counted words ns ≤ g.maxDepth * (most + extra + 1) ∧
          (words = [] → ns.length ≤ g.maxDepth * (most + extra + 1)) := by
  refine ⟨g.exists_most_tiers, ?_⟩
  intro most hmost lexer root s s' v h ns hns hchain
  have hrun (rule : Rule) (hrule : rule ∈ g.rules) :
      YieldsData (rule.toSegment.run g : Parse lexer Outcome)
        (Value.All (Node.Within words (g.maxDepth * (most + extra + 1)))) := by
    refine Delivers.yieldsData ?_ fun I _ => Segment.keeps_run g rule.toSegment
    intro t o t' ht v hv
    have hlevels : YieldsData (rule.toSegment.runWithin g (g.maxDepth - t.depth) :
        Parse lexer Outcome) _ := yieldsData_runWithin (fun _ h => h)
      (fun rule hr => (hg rule hr).and (hmost rule hr)) ((hg rule hrule).and (hmost rule hrule)) _
    have hall := hlevels.delivers t o t' ht v hv
    exact hall.within_mono (Nat.mul_le_mul_right _ (Nat.sub_le _ _))
  have hparse := Survey.yields_parse_of_runs hrun root (Or.inr trivial) (fun _ => True)
    (fun _ _ => trivial) s trivial
  rw [h] at hparse
  have hcount : counted words ns ≤ g.maxDepth * (most + extra + 1) := by
    cases ns with
    | nil => exact Nat.zero_le _
    | cons n ns => exact hparse.2 n (hns n List.mem_cons_self) ns hchain
  refine ⟨hcount, ?_⟩
  intro hwords
  rwa [hwords, counted_nil] at hcount

theorem lengthens_sums : sums.Throughout fun shape =>
    shape.Lengthens ["^"] 0 ∧ shape.tiers.length ≤ 2 := by
  have hword : (Segment.ofKind "word").Throughout fun shape =>
      shape.Lengthens ["^"] 0 ∧ shape.tiers.length ≤ 2 :=
    Segment.throughout_of_parts_eq_nil rfl ⟨trivial, by decide⟩
  have hterms : ((Segment.binary (.ofKind "word") sumTiers).keyed "terms").Throughout fun shape =>
      shape.Lengthens ["^"] 0 ∧ shape.tiers.length ≤ 2 := by
    have hwords : GroupsRightIn ["^"] sumTiers := by
      unfold GroupsRightIn sumTiers
      simp [Tier.ofTexts]
    exact Segment.throughout_iff.2 ⟨⟨hwords, by decide⟩, List.forall_mem_singleton.2 hword⟩
  unfold Grammar.Throughout sums
  rw [List.forall_mem_singleton]
  refine Segment.throughout_iff.2 ⟨⟨Shape.lengthens_of_combined ?_ nofun, by decide⟩, ?_⟩
  · exact (rfl : (id : Value → Value) = id)
  · exact List.forall_mem_singleton.2 hterms

/-- Twelve powers make a chain of twelve nodes. Under three levels and with two tiers no more than
nine nodes are counted in it. -/
theorem parse_chains_powers :
    ∃ v s' ns, sums.parse "sum" (.ofString (powers 12) : Stream wordsAndSigns) = .ok v s' ∧
      (∀ n : Node, n ∈ ns → n.Inside v) ∧ Rightward ns ∧ ns.length = 12 ∧
      counted ["^"] ns ≤ 9 := by
  obtain ⟨v, s', h, ns, hlength, hchain, hall⟩ := parse_powers 11
  obtain ⟨-, hbound⟩ := parse_chains (lengthens_sums.mono fun _ h => h.1)
  refine ⟨v, s', ns, h, fun n hn => (hall n hn).1, hchain, hlength, ?_⟩
  have htiers : sums.Throughout _ := lengthens_sums.mono fun _ h => h.2
  exact (hbound 2 htiers wordsAndSigns "sum" _ s' v h ns (fun n hn => (hall n hn).1) hchain).1

/-- No number bounds the chains of all texts: under a limit of three levels powers make chains as
long as the text. -/
theorem chains_unbounded :
    ¬ ∀ g : Grammar, ∃ bound, ∀ (lexer : Lexer) (root text : String) (v : Value)
      (s' : Stream lexer), g.parseText lexer root text = .ok v s' → ∀ ns : List Node,
        (∀ n ∈ ns, n.Inside v ∧ n.kind = some binaryKind) → Rightward ns → ns.length ≤ bound := by
  intro h
  obtain ⟨bound, hbound⟩ := h sums
  obtain ⟨v, s', hparse, ns, hlength, hchain, hall⟩ := parse_powers bound
  have hle := hbound wordsAndSigns "sum" (powers (bound + 1)) v s' hparse ns hall hchain
  omega

end Descent
