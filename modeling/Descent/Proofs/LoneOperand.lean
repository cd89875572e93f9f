import Descent.Proofs.Assembling
import Descent.Proofs.Climbing
import Descent.Proofs.Looking

/-!
# Operands without operators

Where no operator follows its first operand, a binary expression is this operand: it matches where
the operand does and leaves the stream as the operand leaves it. But it always has data. An operand
without data, such as a sign, becomes a null, and a rule passes on what the operand would not have
given it.

* `expressionFrom_of_stop`: the loop ends before what is no operator.
* `exists_binary_match`: the match of the expression.
* `assembleAlike_iff`: what a rule makes of it.
* `binary_lone_operand`: when the expression is as good as its operand.
-/
namespace Descent

open Descent.Stream

variable {lexer : Lexer} {text : String} {g : Grammar} {s t seen : Stream lexer}
  {found : Option Token} {operand : Segment} {tiers : List Tier} {o q : Outcome}

/-! ## The expression -/

/-- What is found is no operator of a tier. -/
def NoOperator (tiers : List Tier) (found : Option Token) : Prop :=
  ∀ token ∈ found, ∀ tier ∈ tiers, tier.contains token = false

instance : Decidable (NoOperator tiers found) :=
  inferInstanceAs (Decidable (∀ token ∈ found, ∀ tier ∈ tiers, tier.contains token = false))

theorem NoOperator.tierOf?_eq_none (h : NoOperator tiers found) {token : Token}
    (htoken : found = some token) : tierOf? tiers token = none :=
  List.findIdx?_eq_none_iff.2 (h token htoken)

theorem operatorAbove?_of_stop (hp : peek s = .ok found seen) (h : NoOperator tiers found)
    (floor : Option Nat) : operatorAbove? tiers floor s = .ok none seen := by
  simp only [operatorAbove?, bind_apply, Parse.peek, Parse.ofPull, hp]
  cases found with
  | none => rfl
  | some token =>
    simp only [h.tierOf?_eq_none rfl]
    rfl

/-- The loop ends with what it has where no operator follows. -/
theorem expressionFrom_of_stop (hp : peek s = .ok found seen) (h : NoOperator tiers found)
    (run : Parse lexer Outcome) (fuel : Nat) (floor : Option Nat) (start : Position)
    (left : Value) :
    expressionFrom run tiers (fuel + 1) floor start left s = .ok (.withData left) seen := by
  rw [expressionFrom, bind_apply, operatorAbove?_of_stop hp h floor]
  rfl

/-- The body of the expression, from a stream that looks as before the operand. -/
theorem binaryBody_of_stop {u : Stream lexer} (hu : u.LooksLike s) (ho : operand.Matches g s o t)
    (hp : peek t = .ok found seen) (h : NoOperator tiers found) :
    ∃ v, binaryBody (operand.run g) tiers u = .ok (.withData (o.data?.getD .null)) v ∧
      Same v seen := by
  obtain ⟨first, seen', hp'⟩ := peek_of_run ho.1
  obtain ⟨w, hw, -⟩ := hu.peek_eq hp'
  obtain ⟨start, hstart⟩ := exists_position hw
  obtain ⟨t', hoperand, hsame⟩ := ho.of_looksLike ((LooksLike.of_peek hw).trans hu)
  obtain ⟨v, hv, hsame'⟩ := (LooksLike.of_same hsame).peek_eq hp
  refine ⟨v, ?_, hsame'⟩
  simp only [binaryBody, operandThen, bind_apply, position_apply, hstart, hoperand.1, hoperand.2,
    if_true, get_apply]
  exact expressionFrom_of_stop hv h ..

/-- An expression around an operand that no operator follows matches as the operand does, but
without its key and with data in any case. -/
theorem exists_binary_match (ho : operand.Matches g (s.atDepth (s.depth + 1)) o t)
    (hp : peek t = .ok found seen) (h : NoOperator tiers found) :
    ∃ q t', (Segment.binary operand tiers).Matches g s q t' ∧
      q.data? = some (o.data?.getD .null) ∧ q.key = none ∧
      Same t' (seen.atDepth s.depth) := by
  obtain ⟨u, hu⟩ := begins_of_inside ho.1 (.binary operand tiers)
  obtain ⟨v, hbody, hsame⟩ := binaryBody_of_stop hu.looksLike ho hp h
  obtain ⟨span, hrun⟩ := run_match_of_begins hu hbody rfl
  refine ⟨_, _, ⟨hrun, rfl⟩, ?_, rfl, hsame.cursor, hsame.buffered, hsame.lastEnd, rfl⟩
  exact congrArg some (Segment.located_data_of_run ho.1 ho.2 span)

/-- What the evaluation of a run shows: a match, with data or without, that no operator follows. -/
theorem exists_lone {withData : Bool}
    (h : endedIn (fun o t => o.isMatch && o.data?.isSome == withData &&
      endedIn (fun found _ => decide (NoOperator tiers found)) (peek t)) (operand.run g s) = true) :
    ∃ o t found seen, operand.Matches g s o t ∧ o.data?.isSome = withData ∧
      peek t = .ok found seen ∧ NoOperator tiers found := by
  obtain ⟨o, t, hrun, hp⟩ := exists_of_endedIn h
  simp only [Bool.and_eq_true, beq_iff_eq] at hp
  obtain ⟨⟨hm, hdata⟩, hlook⟩ := hp
  obtain ⟨found, seen, hpeek, hstop⟩ := exists_of_endedIn hlook
  exact ⟨o, t, found, seen, ⟨hrun, hm⟩, hdata, hpeek, of_decide_eq_true hstop⟩

/-! ## What a rule makes of it -/

/-- The outcome without its key and its mode. -/
def Outcome.unkeyed (o : Outcome) : Outcome := { o with key := none, nesting := .inherit }

/-- A rule makes the same of the two outcomes, whatever its kind and its policy are and whatever
stands before and behind them. -/
def AssembleAlike (o q : Outcome) : Prop :=
  ∀ policy before after position kind,
    (assemble policy (before ++ (o, position) :: after)).map (·.close kind) =
      (assemble policy (before ++ (q, position) :: after)).map (·.close kind)

theorem assembleAlike_of_part (h : ∀ policy, o.part policy = q.part policy) :
    AssembleAlike o q := by
  intro policy before after position kind
  have hadd (d : Draft) : d.add o policy position = d.add q policy position := by
    rw [d.add_eq_extend, d.add_eq_extend, h]
  simp only [assemble_append, List.foldlM_cons, hadd]

/-- Without a key the mode makes no difference. -/
theorem part_eq_of_data (hdata : o.data? = q.data?) (ho : o.key = none) (hq : q.key = none)
    (policy : Nesting) : o.part policy = q.part policy := by
  unfold Outcome.part
  rw [hdata, ho, hq]
  rcases q.data? with _ | v
  · rfl
  · cases v <;> rfl

/-- Whether there is data matters to a rule, even if the data is null. -/
theorem assembleAlike_iff (hdata : q.data? = some (o.data?.getD .null)) (hkey : q.key = none) :
    AssembleAlike q o.unkeyed ↔ o.data?.isSome := by
  constructor
  · intro h
    cases ho : o.data? with
    | some v => rfl
    | none =>
      -- A rule without a kind gives a null that is all it has, and nothing for nothing.
      rw [ho] at hdata
      have hunkeyed : o.unkeyed.data? = none := ho
      have halone := h .inherit [] [] Position.start none
      simp only [List.nil_append, assemble, List.foldlM_cons, List.foldlM_nil,
        Draft.add_eq_extend, Outcome.part, hdata, hkey, hunkeyed] at halone
      cases halone
  · intro h
    obtain ⟨v, hv⟩ := Option.isSome_iff_exists.1 h
    rw [hv] at hdata
    exact assembleAlike_of_part (part_eq_of_data (hdata.trans hv.symm) hkey rfl)

/-- Where the operand, which runs one level deeper than the expression, matches and no operator of
any tier follows, the expression matches, and every later question to the stream is answered as
behind the operand. The data of the expression is that of the operand, and null if the operand has
none. So it is as good as the operand without its key and its mode, for its data and for every rule
that it stands in, exactly if the operand has data. -/
theorem binary_lone_operand (hs : s.Reachable text)
    (ho : operand.Matches g (s.atDepth (s.depth + 1)) o t) (hp : peek t = .ok found seen)
    (hstop : NoOperator tiers found) :
    ∃ q t', (Segment.binary operand tiers).Matches g s q t' ∧
      (∀ qs, answers t' qs = answers (t.atDepth s.depth) qs) ∧
      q.data? = some (o.data?.getD .null) ∧
      (q.data? = o.data? ↔ o.data?.isSome) ∧
      (AssembleAlike q o.unkeyed ↔ o.data?.isSome) := by
  obtain ⟨q, t', hmatch, hdata, hkey, hsame⟩ := exists_binary_match ho hp hstop
  have hseen : peek (t.atDepth s.depth) = .ok found (seen.atDepth s.depth) := by
    rw [peek_atDepth, hp]
  refine ⟨q, t', hmatch, fun qs => ?_, hdata, ?_, assembleAlike_iff hdata hkey⟩
  · rw [answers_eq_of_same (run_reachable hs hmatch.1) hsame, answers_peek hseen]
  · rw [hdata]
    cases o.data? <;> simp

/-- A word has data, and the word behind it is no operator. -/
theorem binary_lone_operand_word :
    let s : Stream wordsAndSigns := .ofString "aa"
    ∃ o t found seen, s.Reachable "aa" ∧
      (Segment.ofKind "word").Matches {} (s.atDepth (s.depth + 1)) o t ∧
      peek t = .ok found seen ∧ NoOperator sumTiers found ∧
      ∃ q t', (Segment.binary (.ofKind "word") sumTiers).Matches {} s q t' ∧
        q.data? = o.data? ∧ AssembleAlike q o.unkeyed := by
  intro s
  obtain ⟨o, t, found, seen, ho, hdata, hp, hstop⟩ : ∃ o t found seen,
      (Segment.ofKind "word").Matches {} (s.atDepth (s.depth + 1)) o t ∧
        o.data?.isSome = true ∧ peek t = .ok found seen ∧ NoOperator sumTiers found :=
    exists_lone (by decide +kernel)
  obtain ⟨q, t', hq, -, -, hsame, hrule⟩ := binary_lone_operand .start ho hp hstop
  exact ⟨o, t, found, seen, .start, ho, hp, hstop, q, t', hq, hsame.2 hdata, hrule.2 hdata⟩

/-- A word that is only asked for has no data, but the expression around it has: what a rule makes
of the one it does not make of the other. -/
theorem binary_lone_null :
    let s : Stream wordsAndSigns := .ofString "a"
    ∃ o t found seen, (Segment.exact "word" "a").Matches {} (s.atDepth (s.depth + 1)) o t ∧
      peek t = .ok found seen ∧ NoOperator sumTiers found ∧ o.data? = none ∧
      ∃ q t', (Segment.binary (.exact "word" "a") sumTiers).Matches {} s q t' ∧
        q.data? = some .null ∧ ¬ AssembleAlike q o.unkeyed := by
  intro s
  obtain ⟨o, t, found, seen, ho, hdata, hp, hstop⟩ : ∃ o t found seen,
      (Segment.exact "word" "a").Matches {} (s.atDepth (s.depth + 1)) o t ∧
        o.data?.isSome = false ∧ peek t = .ok found seen ∧ NoOperator sumTiers found :=
    exists_lone (by decide +kernel)
  obtain ⟨q, t', hq, hnull, hkey, -⟩ := exists_binary_match ho hp hstop
  have hrule : ¬ AssembleAlike q o.unkeyed := by
    rw [assembleAlike_iff hnull hkey, hdata]
    exact Bool.false_ne_true
  have hnone : o.data? = none := Option.isSome_eq_false_iff.1 hdata |> Option.isNone_iff_eq_none.1
  rw [hnone] at hnull
  exact ⟨o, t, found, seen, ho, hp, hstop, hnone, q, t', hq, hnull, hrule⟩

end Descent
