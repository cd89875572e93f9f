import Descent.Proofs.Climbing
import Descent.Proofs.Iteration

/-!
# What expressions find

A row of operands with operators between them, as the tokens say it, has one value: that of the tree
that groups it by the tiers (`Groups`). An expression that is read gives this value, and is read if
its operands are.

* `Groups.unique`: a row has no other value.
* `reads_expressionFrom`: the loop goes on as far as there are operands.
* `ReadsRow.promised`: what was read, operand by operand, as the tokens say it.
* `readsWithin_binary`: the segment.
-/
namespace Descent

open Descent.Stream

/-! ## Rows -/

/-- The tier that what a token says belongs to as an operator. -/
def tierFor? (tiers : List Tier) (l : Lexeme) : Option Nat :=
  tiers.findIdx? (·.operators.any fun (kind, text) => l.1 == kind && l.2.text? == some text)

theorem tierOf?_eq_tierFor? (tiers : List Tier) (t : Token) :
    tierOf? tiers t = tierFor? tiers t.content := rfl

/-- It says an operator of one of the tiers. -/
def IsOperator (tiers : List Tier) (l : Lexeme) : Prop :=
  ∃ tier ∈ tiers, ∃ entry ∈ tier.operators, l = (entry.1, .text entry.2)

theorem isOperator_iff {tiers : List Tier} {l : Lexeme} :
    IsOperator tiers l ↔ (tierFor? tiers l).isSome = true := by
  obtain ⟨kind, v⟩ := l
  rw [tierFor?, List.findIdx?_isSome, List.any_eq_true]
  refine exists_congr fun tier => and_congr_right fun _ => ?_
  rw [List.any_eq_true]
  refine exists_congr fun entry => and_congr_right fun _ => ?_
  cases v <;> simp [TokenValue.text?]

/-- What an operator says, and the data of the operand behind it. -/
def saidOf (entry : Operator × Operand) : Lexeme × Value :=
  (entry.1.token.content, entry.2.data.bare)

/-- The value of a row that begins with the data `first`, without spans. -/
def Groups (tiers : List Tier) (first : Value) (row : List (Lexeme × Value)) (v : Value) : Prop :=
  ∃ tree : OpTree, tree.Grouped tiers ∧ tree.first.data.bare = first ∧
    tree.rest.map saidOf = row ∧
    (∀ entry ∈ tree.rest, tierOf? tiers entry.1.token = some entry.1.tier) ∧ tree.value.bare = v

namespace OpTree

/-- The tree with nothing but what its tokens say. -/
def bare : OpTree → OpTree
  | leaf operand => leaf ⟨.start, operand.data.bare, .start⟩
  | node operator left right =>
    node ⟨⟨operator.token.kind, operator.token.value, .nowhere⟩, operator.tier⟩ left.bare right.bare

theorem first_bare (t : OpTree) : t.bare.first = ⟨.start, t.first.data.bare, .start⟩ := by
  induction t with
  | leaf operand => rfl
  | node operator left right ihl _ => exact ihl

theorem rest_bare (t : OpTree) : t.bare.rest = t.rest.map fun entry =>
    (⟨⟨entry.1.token.kind, entry.1.token.value, .nowhere⟩, entry.1.tier⟩,
      ⟨.start, entry.2.data.bare, .start⟩) := by
  induction t with
  | leaf operand => rfl
  | node operator left right ihl ihr =>
    simp only [bare, rest, ihl, ihr, first_bare, List.map_append, List.map_cons]

theorem Grouped.bare {tiers : List Tier} {t : OpTree} (h : t.Grouped tiers) :
    t.bare.Grouped tiers := by
  have tiers_eq (u : OpTree) (p : Nat → Prop) (hu : ∀ op ∈ u.operators, p op.tier) :
      ∀ op ∈ u.bare.operators, p op.tier := by
    simp only [operators, rest_bare, List.map_map, List.mem_map, Function.comp_apply] at hu ⊢
    rintro _ ⟨entry, hmem, rfl⟩
    exact hu entry.1 ⟨entry, hmem, rfl⟩
  induction t with
  | leaf operand => trivial
  | node operator left right ihl ihr =>
    exact ⟨tiers_eq left (Fits tiers .left operator.tier) h.1,
      tiers_eq right (Fits tiers .right operator.tier) h.2.1, ihl h.2.2.1, ihr h.2.2.2⟩

theorem bare_toValue (v : TokenValue) : v.toValue.bare = v.toValue := by cases v <;> rfl

theorem bare_operation (span : Span) (operator : TokenValue) (left right : Value) :
    (operation span operator left right).bare =
      .node ⟨some binaryKind, none, Fields.insert rightName right.bare (Fields.insert leftName
        left.bare (Fields.insert operatorName operator.toValue []))⟩ := by
  simp only [operation, Value.bare, Value.mapSpans, Node.mapSpans_insert]
  rw [← Value.bare, ← Value.bare, ← Value.bare, bare_toValue]
  rfl

theorem bare_bare (v : Value) : v.bare.bare = v.bare := Value.mapSpans_mapSpans _ _ v

theorem bare_value (t : OpTree) : t.bare.value.bare = t.value.bare := by
  induction t with
  | leaf operand => exact bare_bare operand.data
  | node operator left right ihl ihr => simp only [bare, value, bare_operation, ihl, ihr]

end OpTree

theorem Groups.unique {tiers : List Tier} {first v w : Value} {row : List (Lexeme × Value)}
    (hv : Groups tiers first row v) (hw : Groups tiers first row w) : v = w := by
  obtain ⟨t, ht, rfl, rfl, htiers, rfl⟩ := hv
  obtain ⟨u, hu, hfirst, hrest, hutiers, rfl⟩ := hw
  -- What an entry says decides on its tier, and with it on the whole entry of the bare tree.
  have entry (r : OpTree) (hr : ∀ e ∈ r.rest, tierOf? tiers e.1.token = some e.1.tier) :
      r.bare.rest = (r.rest.map saidOf).map fun (l, v) =>
        (⟨⟨l.1, l.2, .nowhere⟩, (tierFor? tiers l).getD 0⟩, ⟨.start, v, .start⟩) := by
    rw [OpTree.rest_bare, List.map_map]
    refine List.map_congr_left fun e he => ?_
    simp only [Function.comp_apply, saidOf, ← tierOf?_eq_tierFor?, hr e he]
    rfl
  have hbare : t.bare = u.bare := by
    refine OpTree.eq_of_grouped ht.bare hu.bare ?_ ?_
    · rw [OpTree.first_bare, OpTree.first_bare, hfirst]
    · rw [entry t htiers, entry u hutiers, hrest]
  rw [← OpTree.bare_value, hbare, OpTree.bare_value]

/-! ## The loop -/

variable {x : Tokenized} {E : Stop → Prop} {ts rest : List Lexeme} {run : Parse x.lexer Outcome}
  {tiers : List Tier} {F : Prop} {floor : Option Nat} {fuel : Nat}

/-- An operator that is taken is what comes next. -/
theorem reads_operatorAbove? :
    Reads E ts (operatorAbove? tiers floor : Parse x.lexer _) fun r rest => rest = ts ∧
      ∀ tier side, r = some (tier, side) →
        ∃ l mid, ts = l :: mid ∧ tierFor? tiers l = some tier := by
  refine reads_peek.bind fun found mid ⟨hmid, hfound⟩ => ?_
  subst hmid
  cases found with
  | none => exact reads_pure ⟨rfl, nofun⟩
  | some token =>
    simp only
    split
    · exact reads_pure ⟨rfl, nofun⟩
    · next tier ht =>
      split
      · exact reads_pure ⟨rfl, nofun⟩
      · refine reads_pure ⟨rfl, fun tier' side h => ?_⟩
        obtain ⟨t, -, h⟩ := Option.map_eq_some_iff.1 h
        cases h
        cases mid with
        | nil => cases hfound
        | cons l mid =>
          obtain rfl : token.content = l := Option.some.inj hfound
          exact ⟨_, mid, rfl, ht⟩

theorem reads_operandThen {more : Position → Value → Parse x.lexer Outcome}
    {R : List Lexeme → Prop} {Q : Outcome → List Lexeme → Prop}
    (h : Finds E ts run (fun _ rest => R rest) F)
    (hfail : ∀ o rest, o.isMatch = false → F → Q o rest)
    (hmore : ∀ start v rest, R rest → Reads E rest (more start v) Q) :
    Reads E ts (operandThen run more) Q := by
  refine reads_position.bind fun start mid hmid => ?_
  subst hmid
  refine h.bind fun o rest ho => ?_
  rcases ho with ⟨hm, hF⟩ | ⟨f, hf, hR⟩
  · rw [hm]
    exact reads_pure (hfail o rest hm hF)
  · rw [hf.isMatch]
    exact hmore start _ rest hR

/-- With an operand behind each operator the loop comes to a match; a failure is one of an
operand. -/
theorem reads_expressionFrom {I : List Lexeme → Prop}
    (hstep : ∀ l mid, I (l :: mid) → (tierFor? tiers l).isSome →
      Finds E mid run (fun _ rest => (Lax E ∨ rest.length ≤ mid.length) ∧ I rest) F)
    (hfuel : Lax E ∨ ts.length < fuel) (hI : I ts) (floor : Option Nat) (start : Position)
    (left : Value) :
    Reads E ts (expressionFrom run tiers fuel floor start left) fun o rest =>
      (o.isMatch = false ∧ F) ∨
        (∃ v, o = .withData v) ∧ (Lax E ∨ rest.length ≤ ts.length) ∧ I rest := by
  induction fuel generalizing ts floor start left with
  | zero => exact reads_endless hfuel
  | succ fuel ih =>
    refine reads_operatorAbove?.bind fun r mid ⟨hmid, hr⟩ => ?_
    subst hmid
    have stops (v : Value) : Reads E mid (pure (.withData v) : Parse x.lexer Outcome) fun o rest =>
        (o.isMatch = false ∧ F) ∨
          (∃ v, o = .withData v) ∧ (Lax E ∨ rest.length ≤ mid.length) ∧ I rest :=
      reads_pure (Or.inr ⟨⟨v, rfl⟩, Or.inr (Nat.le_refl _), hI⟩)
    cases r with
    | none => exact stops left
    | some found =>
      obtain ⟨tier, side⟩ := found
      obtain ⟨l, behind, rfl, ht⟩ := hr tier side rfl
      refine reads_get_bind fun s hs => ?_
      refine reads_next.bind fun token more ⟨hmore, htoken⟩ => ?_
      obtain rfl : behind = more := hmore.symm
      cases token with
      | none => cases htoken
      | some token =>
        -- What is to the right of the operator begins with an operand, and goes on as a loop does.
        have hright : Reads E behind
            (operandThen run (expressionFrom run tiers fuel (floorBehind tier side)))
            fun o rest => (o.isMatch = false ∧ F) ∨
              (∃ v, o = .withData v) ∧ (Lax E ∨ rest.length ≤ behind.length) ∧ I rest := by
          refine reads_operandThen (hstep l behind hI (by rw [ht]; rfl))
            (fun o rest hm hF => Or.inl ⟨hm, hF⟩) fun start' v rest ⟨hle, hI'⟩ => ?_
          refine Reads.mono (ih (enough_of_lt hfuel (hle.imp_right ?_)) hI' _ start' v)
            fun o last ho => ho.imp_right fun ⟨hv, hle', hI''⟩ => ⟨hv, ?_, hI''⟩
          · intro hle
            exact Nat.lt_succ_of_le hle
          · rcases hle with hE | hle
            · exact Or.inl hE
            · exact hle'.imp_right fun hle' => Nat.le_trans hle' hle
        refine hright.bind fun right rest hright => ?_
        rcases hright with ⟨hm, hF⟩ | ⟨⟨v, rfl⟩, hle, hI'⟩
        · simp only [hm]
          refine (reads_returnTo hs).bind fun _ _ _ => reads_pure (Or.inl ⟨hm, hF⟩)
        · refine reads_get_bind fun s' _ => ?_
          have hlt : Lax E ∨ rest.length < (l :: behind).length :=
            hle.imp_right Nat.lt_succ_of_le
          refine Reads.mono (ih (enough_of_lt hfuel hlt) hI' _ _ _) fun o last ho =>
            ho.imp_right fun ⟨hv, hle', hI''⟩ => ⟨hv, ?_, hI''⟩
          rcases hlt with hE | hlt
          · exact Or.inl hE
          · exact hle'.imp_right fun hle' => by omega

/-! ## What was read -/

/-- What an operand promises in a row: its data, and the row behind it. -/
def RowPromises (E : Stop → Prop)
    (I : List Lexeme → (List (Lexeme × Value) → List Lexeme → Prop) → Prop) (l : Lexeme)
    (ts : List Lexeme) (Q : List (Lexeme × Value) → List Lexeme → Prop) (f : Finding)
    (rest : List Lexeme) : Prop :=
  (Lax E ∨ rest.length ≤ ts.length) ∧
    ∃ v Q', f.data = some v ∧ I rest Q' ∧ ∀ row last, Q' row last → Q ((l, v) :: row) last

section

variable {I : List Lexeme → (List (Lexeme × Value) → List Lexeme → Prop) → Prop}
  {Q : List (Lexeme × Value) → List Lexeme → Prop}

/-- A row that was read up to where no operator follows is what its operands promise. -/
theorem ReadsRow.promised {s s' : Stream x.lexer} {row : List (Operator × Operand)}
    (h : ReadsRow run tiers s row s') (hstops : Stops tiers none s') (hs : Ahead x ts s)
    (hend : ∀ ts Q, I ts Q → (∀ l mid, ts = l :: mid → tierFor? tiers l = none) → Q [] ts)
    (hstep : ∀ l mid Q, I (l :: mid) Q → (tierFor? tiers l).isSome →
      Finds E mid run (RowPromises E I l mid Q) F) (hI : I ts Q) :
    (∀ entry ∈ row, tierOf? tiers entry.1.token = some entry.1.tier) ∧
      ∃ rest, Ahead x rest s' ∧ Q (row.map saidOf) rest := by
  induction h generalizing ts Q with
  | @done s s' found hp =>
    obtain ⟨found', seen, hp', hfound, hseen⟩ := hs.peek
    cases hp.symm.trans hp'
    refine ⟨nofun, ts, hseen.ahead, hend ts Q hI fun l mid hts => ?_⟩
    obtain ⟨again, hagain, hwaits⟩ := hstops
    cases (peek_again hp).symm.trans hagain
    subst hts
    cases found with
    | none => cases hfound
    | some token =>
      obtain rfl : token.content = l := Option.some.inj hfound
      rw [← tierOf?_eq_tierFor?]
      cases ht : tierOf? tiers token with
      | none => rfl
      | some tier => cases hwaits token tier rfl ht
  | @more s s₁ s₂ s' operator operand row hn ht ho _ ih =>
    obtain ⟨token, seen, hn', htoken, hs₁⟩ := hs.next
    cases hn.symm.trans hn'
    cases ts with
    | nil => cases htoken
    | cons l mid =>
      obtain rfl : operator.token.content = l := Option.some.inj htoken
      obtain ⟨before, o, hp, hr, hm, hdata, -⟩ := ho
      obtain ⟨p, before', hp', hbefore⟩ := hs₁.position
      cases (show Parse.position s₁ = .ok operand.start before by
        rw [Parse.position, Parse.ofPull, hp]).symm.trans hp'
      rcases hstep _ mid Q hI (by rw [← tierOf?_eq_tierFor?, ht]; rfl) before hbefore.ahead with
        ⟨e, s'', he, -⟩ | ⟨o', s'', rest, ho', hs₂, ⟨hm', -⟩ | ⟨f, hf, -, v, Q', hv, hI', hQ⟩⟩
      · cases hr.symm.trans he
      · cases hr.symm.trans ho'
        rw [hm] at hm'
        cases hm'
      · cases hr.symm.trans ho'
        obtain ⟨htiers, last, hlast, hrow⟩ := ih hstops hs₂ hI'
        refine ⟨List.forall_mem_cons.2 ⟨ht, htiers⟩, last, hlast, ?_⟩
        have hbare : operand.data.bare = v := by
          obtain ⟨w, hw, rfl⟩ := Option.map_eq_some_iff.1 (hf.data.trans hv)
          rw [hdata, hw]
          rfl
        rw [List.map_cons, saidOf, hbare]
        exact hQ _ _ hrow

/-! ## Expressions -/

/-- The data of an expression is the value of its row. -/
theorem finds_binaryBody {M : Finding → List Lexeme → Prop}
    (hfirst : Finds E ts run (fun f mid => ∃ v Q, f.data = some v ∧ I mid Q ∧
      ∀ row rest w, Q row rest → Groups tiers v row w → M { data := some w } rest) F)
    (hend : ∀ ts Q, I ts Q → (∀ l mid, ts = l :: mid → tierFor? tiers l = none) → Q [] ts)
    (hstep : ∀ l mid Q, I (l :: mid) Q → (tierFor? tiers l).isSome →
      Finds E mid run (RowPromises E I l mid Q) F) :
    Finds E ts (binaryBody run tiers) M F := by
  intro s hs
  obtain ⟨p, seen, hp, hseen⟩ := hs.position
  simp only [binaryBody, operandThen, bind_apply, hp]
  rcases hfirst seen hseen.ahead with
    ⟨e, s', hr, he⟩ | ⟨o, s₁, mid, hr, hs₁, ⟨hm, hF⟩ | ⟨f, hf, v, Q, hv, hI, hQ⟩⟩
  · rw [hr]
    exact Or.inl ⟨e, s', rfl, he⟩
  · rw [hr]
    simp only [hm]
    exact Or.inr ⟨o, s₁, mid, rfl, hs₁, Or.inl ⟨hm, hF⟩⟩
  rw [hr]
  simp only [hf.isMatch, if_true, bind_apply, get_apply]
  obtain ⟨w, hw, rfl⟩ := Option.map_eq_some_iff.1 (hf.data.trans hv)
  have henough : Lax E ∨ mid.length < s₁.unread + 1 :=
    Or.inr (Nat.lt_succ_of_le hs₁.length_le_unread)
  have hcontinues (l : Lexeme) (mid : List Lexeme) (hI : ∃ Q, I (l :: mid) Q)
      (ht : (tierFor? tiers l).isSome) :
      Finds E mid run
        (fun _ rest => (Lax E ∨ rest.length ≤ mid.length) ∧ ∃ Q, I rest Q) F := by
    obtain ⟨Q, hI⟩ := hI
    refine Reads.mono (hstep l mid Q hI ht) fun o rest ho => ho.imp_right ?_
    rintro ⟨f, hf, hle, -, Q', -, hI', -⟩
    exact ⟨f, hf, hle, Q', hI'⟩
  have hloop := reads_expressionFrom (I := fun ts => ∃ Q, I ts Q) hcontinues henough ⟨Q, hI⟩ none p
    (o.data?.getD .null) s₁ hs₁
  rcases hloop with ⟨e, s', he, hE⟩ | ⟨o', s', last, ho', hs', ⟨hm, hF⟩ | ⟨⟨u, rfl⟩, -⟩⟩
  · rw [he]
    exact Or.inl ⟨e, s', rfl, hE⟩
  · rw [ho']
    exact Or.inr ⟨o', s', last, rfl, hs', Or.inl ⟨hm, hF⟩⟩
  -- The loop has read a row from behind the first operand, and has grown a tree over it.
  let operand : Operand := ⟨p, o.data?.getD .null, s₁.lastEnd⟩
  have hread : ReadsOperand run s operand s₁ := by
    refine ⟨seen, o, ?_, hr, hf.isMatch, rfl, rfl⟩
    have hp := hp
    rw [Parse.position, Parse.ofPull] at hp
    cases hq : Stream.position s with
    | ok q t => rw [hq] at hp; cases hp; rfl
    | error e t => rw [hq] at hp; cases hp
  have hleaf : Grown tiers none (.leaf operand) s₁ := grown_leaf hread
  obtain ⟨tree, row, htree, hrest, hgrown, hstops, hdata, hrow⟩ :=
    expressionFrom_match hleaf ho' rfl
  obtain rfl : tree.rest = row := hrest
  obtain ⟨htiers, rest, hahead, hQrow⟩ := hrow.promised hstops hs₁ hend hstep hI
  obtain rfl : u = tree.value := Option.some.inj hdata
  rw [ho']
  refine Or.inr ⟨_, s', rest, rfl, hahead, Or.inr ⟨{ data := some tree.value.bare },
    ⟨rfl, rfl, rfl, rfl, fun n hn hk => ?_⟩, hQ _ _ _ hQrow
      ⟨tree, hgrown.grouped, ?_, rfl, htiers, rfl⟩⟩⟩
  · have hn : tree.value = .node n := Option.some.inj hn
    cases tree with
    | leaf operand' =>
      obtain rfl : operand' = operand := htree
      refine hf.tidy n ?_ hk
      rw [hw]
      rw [show (OpTree.leaf operand).value = o.data?.getD .null from rfl, hw] at hn
      exact congrArg some hn
    | node operator left right =>
      cases hn
      cases hk
  · rw [show tree.first = operand from htree]
    show (o.data?.getD .null).bare = w.bare
    rw [hw]
    rfl

theorem readsWithin_binary [Lenient E] {grammar : Grammar} {n : Nat} {s operand : Segment}
    {N : Finding → List Lexeme → Prop} (hs : s.shape = .binary operand tiers)
    (hn : s.options.nesting = .inherit)
    (hfirst : ReadsWithin x grammar E n operand ts (fun f mid => ∃ v Q, f.data = some v ∧ I mid Q ∧
      ∀ row rest w, Q row rest → Groups tiers v row w →
        N (({ data := some w } : Finding).keyed s.options.key) rest) F)
    (hend : ∀ ts Q, I ts Q → (∀ l mid, ts = l :: mid → tierFor? tiers l = none) → Q [] ts)
    (hstep : ∀ l mid Q, I (l :: mid) Q → (tierFor? tiers l).isSome →
      ReadsWithin x grammar E n operand mid (RowPromises E I l mid Q) F) :
    ReadsWithin x grammar E n s ts N F := by
  refine (readsWithin_of_body hn (fun m hm => ?_) fun _ _ hN => hN).of_le (Nat.le_succ n)
  rw [hs]
  exact finds_binaryBody (hfirst m hm).finds hend fun l mid Q hI ht =>
    (hstep l mid Q hI ht m hm).finds

end

end Descent
