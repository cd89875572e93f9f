import Descent.Proofs.Backtracking
import Descent.Proofs.Grouping

/-!
# Precedence climbing

The loop over the operators of an expression keeps a tree of what it has read, and calls itself for
each right operand with a floor that makes the looser operators wait. `ReadsRow` says what was read,
token by token and operand by operand, with no regard to grouping.

* `expressionFrom_cases`: what one step of the loop does.
* `expressionFrom_match`: the invariant of the loop. The tree stays grouped, its operators stay
  above the floor, and the operator at which the loop stops waits for the floor.
* `binary_match`: a match of a binary expression reads operands with operators between them up to
  where no operator follows, and its data is the one grouped tree over them.
-/
namespace Descent

open Descent.Stream

variable {lexer : Lexer}

/-! ## Inside of a match -/

/-- The state in which the body of a segment that begins in `s` is run: one level deeper, after a
look at the next token. -/
def Stream.Entered (s inner : Stream lexer) : Prop :=
  ∃ found seen, peek s = .ok found seen ∧ Same inner (seen.atDepth (s.depth + 1))

theorem Stream.Entered.depth_eq {s inner : Stream lexer} (h : s.Entered inner) :
    inner.depth = s.depth + 1 := by
  obtain ⟨found, seen, -, hs⟩ := h
  exact hs.depth

theorem entered_of_position {s seen : Stream lexer} {p : Position} (e : Event)
    (h : Stream.position (s.atDepth (s.depth + 1)) = .ok p seen) :
    s.Entered (seen.record e) := by
  rw [position_eq, peek_atDepth] at h
  cases hp : peek s with
  | error x t => rw [hp] at h; cases h
  | ok found t =>
    rw [hp] at h
    cases found <;> cases h <;> exact ⟨_, t, hp, rfl, rfl, rfl, rfl⟩

theorem match_of_settled {options : Options} {p : Position} {body : Parse lexer Outcome}
    {before s' : Stream lexer} {o : Outcome} (h : settled options p body before = .ok o s')
    (hm : o.isMatch = true) :
    ∃ inside span, body before = .ok inside s' ∧ inside.isMatch = true ∧
      o.data? = inside.data?.map (Outcome.located span) := by
  unfold settled at h
  cases hb : body before with
  | error e behind => rw [hb] at h; cases h
  | ok inside behind =>
    rw [hb] at h
    simp only at h
    split at h <;> rename_i hv
    · cases h
      refine ⟨inside, ⟨p, p.latest s'.lastEnd⟩, rfl, by simp [Outcome.isMatch, hv], ?_⟩
      simp [Outcome.settleMatch, Outcome.data?, hv]
    · cases h
      simp [Outcome.settleFailure, Outcome.isMatch] at hm

/-- A match of a segment is a match of its body, whose data takes the span of the run. -/
theorem Segment.match_of_run {grammar : Grammar} {segment : Segment} {s s' : Stream lexer}
    {o : Outcome} (h : segment.run grammar s = .ok o s') (hm : o.isMatch = true) :
    ∃ inner behind inside span, s.Entered inner ∧
      segment.shape.body grammar (innerRun grammar s) inner = .ok inside behind ∧
      inside.isMatch = true ∧ o.data? = inside.data?.map (Outcome.located span) ∧
      s' = behind.atDepth s.depth := by
  rw [run_eq_guarded] at h
  unfold guarded at h
  split at h
  · rw [deeper_apply, attempt_apply] at h
    cases hp : Stream.position (s.atDepth (s.depth + 1)) with
    | error e seen => rw [hp] at h; cases h
    | ok p seen =>
      rw [hp] at h
      have hin := entered_of_position
        (.entered (segment.options.label.getD "<segment>") seen.depth p) hp
      simp only at h
      generalize seen.record _ = inner at h hin
      split at h <;> rename_i o' behind hs <;> cases h
      obtain ⟨inside, span, hb, hi, hd⟩ := match_of_settled hs hm
      have hbody : Keeps (fun _ => True) (segment.shape.body grammar (innerRun grammar s)) :=
        keeps_body (fun _ => Segment.keeps_runWithin grammar _ _) grammar _
      have hdepth := (hbody inner trivial).2
      rw [hb, hin.depth_eq] at hdepth
      have hback : behind.depth - 1 = s.depth := by
        rw [show behind.depth = s.depth + 1 from hdepth]; rfl
      exact ⟨inner, behind, inside, span, hin, hb, hi, hd, by rw [hback]⟩
  · rw [deeper_apply, tooDeep, bind_apply, position_apply] at h
    cases hp : Stream.position (s.atDepth (s.depth + 1)) <;> rw [hp] at h <;> cases h

/-! ## Rows of operands and operators -/

/-- A run that matches between two states, with what it read as an operand. -/
def ReadsOperand (run : Parse lexer Outcome) (s : Stream lexer) (operand : Operand)
    (s' : Stream lexer) : Prop :=
  ∃ seen o, Stream.position s = .ok operand.start seen ∧ run seen = .ok o s' ∧
    o.isMatch = true ∧ operand.data = o.data?.getD .null ∧ operand.stop = s'.lastEnd

/-- Operators of the tiers with operands between two states, up to a last look. -/
inductive ReadsRow (run : Parse lexer Outcome) (tiers : List Tier) :
    Stream lexer → List (Operator × Operand) → Stream lexer → Prop
  | done {s s' : Stream lexer} {found : Option Token} (h : peek s = .ok found s') :
    ReadsRow run tiers s [] s'
  | more {s s₁ s₂ s' : Stream lexer} {operator : Operator} {operand : Operand}
    {rest : List (Operator × Operand)} (hn : next s = .ok (some operator.token) s₁)
    (ht : tierOf? tiers operator.token = some operator.tier)
    (ho : ReadsOperand run s₁ operand s₂) (hr : ReadsRow run tiers s₂ rest s') :
    ReadsRow run tiers s ((operator, operand) :: rest) s'

section

variable {run : Parse lexer Outcome} {tiers : List Tier}

/-- A look changes nothing for the row that begins there. -/
theorem ReadsRow.of_peek {s s₁ s' : Stream lexer} {found : Option Token}
    {row : List (Operator × Operand)} (hp : peek s = .ok found s₁)
    (h : ReadsRow run tiers s₁ row s') : ReadsRow run tiers s row s' := by
  have hp₁ := peek_again hp
  cases h with
  | done h => rw [hp₁] at h; cases h; exact .done hp
  | more hn ht ho hr =>
    refine .more ?_ ht ho hr
    rw [next_eq, hp₁] at hn
    rw [next_eq, hp, hn]

theorem ReadsRow.append {s s₁ s' : Stream lexer} {row more : List (Operator × Operand)}
    (h₁ : ReadsRow run tiers s row s₁) (h₂ : ReadsRow run tiers s₁ more s') :
    ReadsRow run tiers s (row ++ more) s' := by
  induction h₁ with
  | done hp => exact h₂.of_peek hp
  | more hn ht ho _ ih => exact .more hn ht ho (ih h₂)

end

/-! ## The loop -/

/-- In this state the stream has looked at what comes next, and that is no operator which the floor
lets through. -/
def Stops (tiers : List Tier) (floor : Option Nat) (s : Stream lexer) : Prop :=
  ∃ found, peek s = .ok found s ∧
    ∀ token tier, found = some token → tierOf? tiers token = some tier → waits floor tier = true

/-- The search for an operator fails to read, finds none that the floor lets through, or finds
one. -/
theorem operatorAbove?_cases (tiers : List Tier) (floor : Option Nat) (s : Stream lexer) :
    (∃ e s₁, operatorAbove? tiers floor s = .error e s₁) ∨
    (∃ found s₁, peek s = .ok found s₁ ∧ operatorAbove? tiers floor s = .ok none s₁ ∧
      Stops tiers floor s₁) ∨
    ∃ token tier side s₁, peek s = .ok (some token) s₁ ∧ tierOf? tiers token = some tier ∧
      waits floor tier = false ∧ tiers[tier]?.map (·.associativity) = some side ∧
      operatorAbove? tiers floor s = .ok (some (tier, side)) s₁ := by
  simp only [operatorAbove?, bind_apply, Parse.peek, Parse.ofPull]
  cases hp : peek s with
  | error e s₁ => exact Or.inl ⟨_, _, rfl⟩
  | ok found s₁ =>
    have hp₁ := peek_again hp
    cases found with
    | none => exact Or.inr (Or.inl ⟨none, s₁, rfl, rfl, none, hp₁, fun _ _ h => nomatch h⟩)
    | some token =>
      cases ht : tierOf? tiers token with
      | none =>
        refine Or.inr (Or.inl ⟨some token, s₁, rfl, by simp only [ht]; rfl, some token, hp₁, ?_⟩)
        rintro _ tier ⟨rfl⟩ hk
        rw [ht] at hk; cases hk
      | some tier =>
        cases hw : waits floor tier with
        | true =>
          refine Or.inr (Or.inl
            ⟨some token, s₁, rfl, by simp only [ht, hw]; rfl, some token, hp₁, ?_⟩)
          rintro _ tier' ⟨rfl⟩ hk
          rw [ht] at hk; cases hk; exact hw
        | false =>
          obtain ⟨hlt, -, -⟩ := List.findIdx?_eq_some_iff_getElem.1 ht
          have hget : tiers[tier]? = some tiers[tier] := List.getElem?_eq_getElem hlt
          exact Or.inr (Or.inr ⟨token, tier, tiers[tier].associativity, s₁, rfl, ht, hw,
            by rw [hget]; rfl, by simp only [ht, hw, hget]; rfl⟩)

theorem operandThen_match {run : Parse lexer Outcome}
    {more : Position → Value → Parse lexer Outcome} {s s' : Stream lexer} {o : Outcome}
    (h : operandThen run more s = .ok o s')
    (hm : o.isMatch = true) :
    ∃ operand s₁, ReadsOperand run s operand s₁ ∧
      more operand.start operand.data s₁ = .ok o s' := by
  simp only [operandThen, bind_apply, position_apply] at h
  cases hp : Stream.position s with
  | error e s₁ => rw [hp] at h; cases h
  | ok p s₁ =>
    rw [hp] at h
    simp only at h
    cases hr : run s₁ with
    | error e s₂ => rw [hr] at h; cases h
    | ok first s₂ =>
      rw [hr] at h
      simp only at h
      split at h
      · next hf =>
        exact ⟨⟨p, first.data?.getD .null, s₂.lastEnd⟩, s₂, ⟨s₁, first, hp, hr, hf, rfl, rfl⟩, h⟩
      · next hf => cases h; exact absurd hm hf

/-- One step of the loop that comes to a match: it ends before what is no operator above the floor,
or it reads such an operator and what is to its right, and goes on with the node of the two. -/
theorem expressionFrom_cases {run : Parse lexer Outcome} {tiers : List Tier} {fuel : Nat}
    {floor : Option Nat} {start : Position} {left : Value} {s s' : Stream lexer} {o : Outcome}
    (h : expressionFrom run tiers (fuel + 1) floor start left s = .ok o s')
    (hm : o.isMatch = true) :
    (∃ found, peek s = .ok found s' ∧ Stops tiers floor s' ∧ o = .withData left) ∨
    ∃ token tier side s₁ s₂ right, tierOf? tiers token = some tier ∧ waits floor tier = false ∧
      tiers[tier]?.map (·.associativity) = some side ∧ next s = .ok (some token) s₁ ∧
      operandThen run (expressionFrom run tiers fuel (floorBehind tier side)) s₁ = .ok right s₂ ∧
      right.isMatch = true ∧
      expressionFrom run tiers fuel floor start
        (operation ⟨start, s₂.lastEnd⟩ token.value left (right.data?.getD .null)) s₂ =
        .ok o s' := by
  rw [expressionFrom, bind_apply] at h
  rcases operatorAbove?_cases tiers floor s with ⟨e, s₁, ho⟩ | ⟨found, s₁, hp, ho, hstops⟩ |
    ⟨token, tier, side, s₁, hp, ht, hw, hside, ho⟩ <;> rw [ho] at h
  · cases h
  · cases h
    exact Or.inl ⟨found, hp, hstops, rfl⟩
  · have hn₁ : next s₁ = .ok (some token) s₁.handOut := by rw [next_eq, peek_again hp]
    have hn : next s = .ok (some token) s₁.handOut := by rw [next_eq, hp]
    simp only [bind_apply, get_apply, Parse.next, Parse.ofPull, hn₁] at h
    refine Or.inr ⟨token, tier, side, s₁.handOut, ?_⟩
    cases hr : operandThen run (expressionFrom run tiers fuel (floorBehind tier side))
        s₁.handOut with
    | error e s₂ => rw [hr] at h; cases h
    | ok right s₂ =>
      rw [hr] at h
      simp only at h
      split at h
      · next hmr => exact ⟨s₂, right, ht, hw, hside, hn, rfl, hmr, h⟩
      · next hmr => cases h; exact absurd hm hmr

/-- The tree is what a loop with this floor has made of an expression up to the state `s`. The next
operator that the floor lets through may have it to its left. -/
structure Grown (tiers : List Tier) (floor : Option Nat) (tree : OpTree) (s : Stream lexer) :
    Prop where
  grouped : tree.Grouped tiers
  above : ∀ operator ∈ tree.operators, waits floor operator.tier = false
  stop : tree.stop = s.lastEnd
  ready : ∀ token tier s₁, next s = .ok (some token) s₁ → tierOf? tiers token = some tier →
    waits floor tier = false → ∀ operator ∈ tree.operators, Fits tiers .left tier operator.tier

section

variable {run : Parse lexer Outcome} {tiers : List Tier} {floor : Option Nat}

theorem grown_leaf {s s' : Stream lexer} {operand : Operand} (h : ReadsOperand run s operand s') :
    Grown tiers floor (.leaf operand) s' := by
  obtain ⟨seen, o, -, -, -, -, hstop⟩ := h
  exact ⟨trivial, by simp, hstop, by simp⟩

/-- An operator that comes next where the loop has stopped waits for the floor. -/
theorem Stops.waits_of_next {s s₁ : Stream lexer} {token : Token} {tier : Nat}
    (h : Stops tiers floor s) (hn : next s = .ok (some token) s₁)
    (ht : tierOf? tiers token = some tier) : waits floor tier = true := by
  obtain ⟨found, hp, hfound⟩ := h
  rw [next_eq, hp] at hn
  cases hn
  exact hfound token tier rfl ht

theorem Grown.of_peek {s s' : Stream lexer} {tree : OpTree} {found : Option Token}
    (h : Grown tiers floor tree s) (hp : peek s = .ok found s') : Grown tiers floor tree s' := by
  have hl := (peek_frame s).1
  rw [hp] at hl
  refine ⟨h.grouped, h.above, h.stop.trans hl.symm, fun token tier s₁ hn => ?_⟩
  refine h.ready token tier s₁ ?_
  rw [next_eq, peek_again hp] at hn
  rw [next_eq, hp, hn]

/-- A tree and the tree to the right of the operator behind it grow into one. -/
theorem Grown.node {s s₁ s₂ : Stream lexer} {left right : OpTree} {token : Token} {tier : Nat}
    {side : Associativity} (hl : Grown tiers floor left s) (hn : next s = .ok (some token) s₁)
    (ht : tierOf? tiers token = some tier) (hw : waits floor tier = false)
    (hside : tiers[tier]?.map (·.associativity) = some side)
    (hr : Grown tiers (floorBehind tier side) right s₂)
    (hstops : Stops tiers (floorBehind tier side) s₂) :
    Grown tiers floor (.node ⟨token, tier⟩ left right) s₂ := by
  have hleft := hl.ready token tier s₁ hn ht hw
  have hright : ∀ operator ∈ right.operators, Fits tiers .right tier operator.tier :=
    fun operator hmem => fits_of_above hside (hr.above operator hmem)
  refine ⟨⟨hleft, hright, hl.grouped, hr.grouped⟩, fun operator hmem => ?_, hr.stop,
    fun token' tier' s₃ hn' ht' hw' operator hmem => ?_⟩
  · simp only [OpTree.operators_node, List.mem_append, List.mem_cons] at hmem
    rcases hmem with hmem | rfl | hmem
    · exact hl.above operator hmem
    · exact hw
    · exact above_of_le hw (hright operator hmem).le
  · -- What comes next waits behind this operator, so this operator may stand to its left.
    have hfits : Fits tiers .left tier' tier := fits_of_waits hside (hstops.waits_of_next hn' ht')
    simp only [OpTree.operators_node, List.mem_append, List.mem_cons] at hmem
    rcases hmem with hmem | rfl | hmem
    · exact hfits.trans (hleft operator hmem)
    · exact hfits
    · exact hfits.trans (hright operator hmem)

/-- A loop that comes to a match has read a row up to where it stops, and has grown a tree over
it. -/
theorem expressionFrom_match {fuel : Nat} {t : OpTree} {s s' : Stream lexer} {o : Outcome}
    (hg : Grown tiers floor t s)
    (h : expressionFrom run tiers fuel floor t.first.start t.value s = .ok o s')
    (hm : o.isMatch = true) :
    ∃ u more, u.first = t.first ∧ u.rest = t.rest ++ more ∧ Grown tiers floor u s' ∧
      Stops tiers floor s' ∧ o.data? = some u.value ∧ ReadsRow run tiers s more s' := by
  induction fuel generalizing floor t s s' o with
  | zero => cases h
  | succ fuel ih =>
    rcases expressionFrom_cases h hm with ⟨found, hp, hstops, rfl⟩ |
      ⟨token, tier, side, s₁, s₂, right, ht, hw, hside, hn, hr, hmr, h⟩
    · exact ⟨t, [], rfl, by simp, hg.of_peek hp, hstops, rfl, .done hp⟩
    · obtain ⟨operand, s₃, ho, hr⟩ := operandThen_match hr hmr
      obtain ⟨r, row, hfirst, hrest, hgr, hstops, hdata, hrow⟩ := ih (grown_leaf ho) hr hmr
      obtain rfl : r.first = operand := hfirst
      obtain rfl : r.rest = row := hrest
      have hnode := hg.node hn ht hw hside hgr hstops
      have hvalue : operation ⟨t.first.start, s₂.lastEnd⟩ token.value t.value
          (right.data?.getD .null) = (OpTree.node ⟨token, tier⟩ t r).value := by
        rw [hdata, ← hgr.stop]; rfl
      rw [hvalue] at h
      obtain ⟨u, more, hfirst, hrest, hgu, hstops, hdata, hmore⟩ := ih hnode h hm
      refine ⟨u, (⟨token, tier⟩, r.first) :: r.rest ++ more, hfirst, ?_, hgu, hstops, hdata,
        .more hn ht ho (hrow.append hmore)⟩
      rw [hrest, OpTree.rest, List.append_assoc]

end

/-! ## Binary expressions -/

section

variable {run other : Parse lexer Outcome} {tiers : List Tier} {depth : Nat}
  (hdepth : ∀ s, (stateOf (run s)).depth = s.depth)
  (hrun : ∀ s, s.depth = depth → run s = other s)
include hdepth hrun

/-- Runs that agree at a depth, and stay there, read the same operands there. -/
theorem ReadsOperand.congr {s s' : Stream lexer} {operand : Operand} (hs : s.depth = depth)
    (h : ReadsOperand run s operand s') : ReadsOperand other s operand s' ∧ s'.depth = depth := by
  obtain ⟨seen, o, hp, hr, ho⟩ := h
  have hseen := depth_position s
  rw [hp, hs] at hseen
  have hs' := hdepth seen
  rw [hr, show seen.depth = depth from hseen] at hs'
  exact ⟨⟨seen, o, hp, by rw [← hrun seen hseen, hr], ho⟩, hs'⟩

theorem ReadsRow.congr {s s' : Stream lexer} {row : List (Operator × Operand)}
    (hs : s.depth = depth) (h : ReadsRow run tiers s row s') : ReadsRow other tiers s row s' := by
  induction h with
  | done hp => exact .done hp
  | @more s s₁ s₂ s' operator operand rest hn ht ho _ ih =>
    have hs₁ := depth_next s
    rw [hn, hs] at hs₁
    obtain ⟨ho, hs₂⟩ := ho.congr hdepth hrun hs₁
    exact .more hn ht ho (ih hs₂)

end

/-- The data of a run has its span, so that no run around it changes it. -/
theorem Segment.located_data_of_run {grammar : Grammar} {segment : Segment} {s s' : Stream lexer}
    {o : Outcome} (h : segment.run grammar s = .ok o s') (hm : o.isMatch = true) (p : Span) :
    Outcome.located p (o.data?.getD .null) = o.data?.getD .null := by
  obtain ⟨-, -, inside, q, -, -, -, hdata, -⟩ := Segment.match_of_run h hm
  rw [hdata]
  cases inside.data? with
  | none => rfl
  | some v => exact Outcome.located_located p q v

theorem ReadsOperand.located_data {grammar : Grammar} {segment : Segment} {s s' : Stream lexer}
    {operand : Operand} (h : ReadsOperand (segment.run grammar) s operand s') (p : Span) :
    Outcome.located p operand.data = operand.data := by
  obtain ⟨seen, o, -, hr, hm, hdata, -⟩ := h
  rw [hdata, Segment.located_data_of_run hr hm p]

theorem OpTree.located_value {t : OpTree} {p : Span}
    (h : Outcome.located p t.first.data = t.first.data) :
    Outcome.located p t.value = t.value := by
  cases t with
  | leaf operand => exact h
  | node operator left right => rfl

/-- A match of a binary expression has read an operand and then operators with operands, up to where
what comes next is no operator of any tier. Its data is that of the one tree over this row that is
grouped by the tiers. -/
theorem binary_match {grammar : Grammar} {operand : Segment} {tiers : List Tier}
    {options : Options} {s s' : Stream lexer} {o : Outcome}
    (h : Segment.run grammar ⟨.binary operand tiers, options⟩ s = .ok o s')
    (hm : o.isMatch = true) :
    ∃ inner first s₁ row behind, s.Entered inner ∧
      ReadsOperand (operand.run grammar) inner first s₁ ∧
      ReadsRow (operand.run grammar) tiers s₁ row behind ∧
      (∃ found, peek behind = .ok found behind ∧
        ∀ token, found = some token → ∀ tier ∈ tiers, tier.contains token = false) ∧
      s' = behind.atDepth s.depth ∧
      ∃ tree : OpTree, o.data? = some tree.value ∧
        ∀ t : OpTree, t.first = first ∧ t.rest = row ∧ t.Grouped tiers ↔ t = tree := by
  obtain ⟨inner, behind, inside, span, hin, hb, hi, hd, hs'⟩ := Segment.match_of_run h hm
  obtain ⟨first, s₁, ho, hb⟩ := operandThen_match (show binaryBody _ _ _ = _ from hb) hi
  rw [bind_apply, get_apply] at hb
  have hleaf : Grown tiers none (.leaf first) s₁ := grown_leaf ho
  obtain ⟨tree, row, hfirst, hrest, hg, ⟨found, hp, hfound⟩, hdata, hrow⟩ :=
    expressionFrom_match hleaf hb hi
  obtain rfl : tree.first = first := hfirst
  obtain rfl : tree.rest = row := hrest
  -- The operands were run with the levels left inside of this segment, which is how they run there.
  have hdepth (t : Stream lexer) : (stateOf (innerRun grammar s operand t)).depth = t.depth :=
    (Segment.keeps_runWithin (I := fun _ => True) grammar _ operand t trivial).2
  have hrun (t : Stream lexer) (ht : t.depth = s.depth + 1) :
      innerRun grammar s operand t = operand.run grammar t := innerRun_eq_run grammar operand ht
  obtain ⟨ho, hs₁⟩ := ho.congr hdepth hrun hin.depth_eq
  refine ⟨inner, tree.first, s₁, tree.rest, behind, hin, ho, hrow.congr hdepth hrun hs₁,
    ⟨found, hp, fun token ht tier hmem => ?_⟩, hs', tree, ?_, fun t => ⟨fun ⟨hf, hr, ht⟩ => ?_, ?_⟩⟩
  · cases hk : tierOf? tiers token with
    | none => exact List.findIdx?_eq_none_iff.1 hk tier hmem
    | some k => cases hfound token k ht hk
  · rw [hd, hdata, Option.map_some, OpTree.located_value (ho.located_data span)]
  · exact OpTree.eq_of_grouped ht hg.grouped hf hr
  · rintro rfl
    exact ⟨rfl, rfl, hg.grouped⟩

/-- Words, a sum sign and a power sign. -/
def wordsAndSigns : Lexer where
  forms := [⟨"word", [.literals ["a"]], []⟩, ⟨"sign", [.literals ["+", "^"]], []⟩]

/-- Sums, which group to the left, of powers, which group to the right. -/
def sumTiers : List Tier := [.ofTexts .left "sign" ["+"], .ofTexts .right "sign" ["^"]]

/-- Did the operation end well, in a result and a state like these? -/
def endedIn {ε σ α : Type} (p : α → σ → Bool) : EStateM.Result ε σ α → Bool
  | .ok a s => p a s
  | .error _ _ => false

theorem exists_of_endedIn {ε σ α : Type} {p : α → σ → Bool} {r : EStateM.Result ε σ α}
    (h : endedIn p r = true) : ∃ a s, r = .ok a s ∧ p a s = true := by
  cases r with
  | ok a s => exact ⟨a, s, rfl, h⟩
  | error e s => cases h

theorem exists_failure_of_endedIn {p : Failure → Bool}
    {r : EStateM.Result Stop (Stream lexer) Outcome}
    (h : endedIn (fun o _ => o.failure?.any p) r = true) :
    ∃ o s f, r = .ok o s ∧ o.failure? = some f ∧ p f = true := by
  obtain ⟨o, s, hr, ho⟩ := exists_of_endedIn h
  obtain ⟨f, hf, hp⟩ := (Option.any_eq_true _ _).1 ho
  exact ⟨o, s, f, hr, hf, hp⟩

/-- The sum of a word, a power of powers and a word is read whole, and grouped. -/
theorem binary_match_sum :
    let s : Stream wordsAndSigns := .ofString "a+a^a^a+a"
    let segment : Segment := ⟨.binary (.ofKind "word") sumTiers, {}⟩
    ∃ o s', segment.run {} s = .ok o s' ∧ o.isMatch = true ∧ s'.cursor.atEnd = true ∧
      ∃ tree : OpTree, o.data? = some tree.value ∧ tree.Grouped sumTiers := by
  intro s segment
  have hended : endedIn (fun o s' => o.isMatch && s'.cursor.atEnd) (segment.run {} s) = true := by
    decide +kernel
  obtain ⟨o, s', h, hp⟩ := exists_of_endedIn hended
  obtain ⟨hm, he⟩ := Bool.and_eq_true_iff.1 hp
  obtain ⟨_, _, _, _, _, -, -, -, -, -, tree, hdata, htree⟩ := binary_match h hm
  exact ⟨o, s', h, hm, he, tree, hdata, ((htree tree).2 rfl).2.2⟩

end Descent
