import Descent.Proofs.Chains
import Descent.Proofs.Operands
import Descent.Proofs.Tiling

/-!
# Long chains

Behind an operator that groups to the right the next operator of its tier is taken by the loop for
the right operand, which calls itself and goes down no level of nesting. So a row of such operators
becomes one chain, however long the row and however few the levels.

* `Value.Leans.exists_rightward`: a tree that leans to the right by `k` nodes has a chain of `k`.
* `reads_leaning`: the loop makes such a tree of a row.
* `parse_powers`: so does a parse under three levels, for every number of operators.
-/
namespace Descent

open Descent.Stream

/-- Going on from right operand to right operand there are nodes of operators, at least so many. -/
inductive Value.Leans : Nat → Value → Prop
  | here (v : Value) : Leans 0 v
  | right {k : Nat} {n : Node} {w : Value} (hkind : n.kind = some binaryKind)
    (hright : n.get? rightName = some w) (h : Leans k w) : Leans (k + 1) (.node n)

namespace Value.Leans

variable {k : Nat} {v : Value}

theorem exists_rightward (h : v.Leans k) :
    ∃ ns : List Node, ns.length = k ∧ Rightward ns ∧ (∀ n, ns.head? = some n → v = .node n) ∧
      ∀ n ∈ ns, n.Inside v ∧ n.kind = some binaryKind := by
  induction h with
  | here v => exact ⟨[], rfl, .nil, nofun, nofun⟩
  | @right k n w hkind hright h ih =>
    obtain ⟨ns, hlength, hchain, hhead, hall⟩ := ih
    refine ⟨n :: ns, congrArg Nat.succ hlength, ?_, ?_, ?_⟩
    · refine List.isChain_cons.2 ⟨?_, hchain⟩
      intro m hm
      rw [hright, hhead m hm]
    · intro m hm
      exact congrArg Value.node (Option.some.inj hm)
    · refine List.forall_mem_cons.2 ⟨⟨.self, hkind⟩, ?_⟩
      intro m hm
      exact ⟨.field (Fields.mem_of_lookup hright) (hall m hm).1, (hall m hm).2⟩

/-- Spans are not looked at. -/
theorem bare_iff : v.bare.Leans k ↔ v.Leans k := by
  have hkind (n : Node) : (n.mapSpans fun _ => none).kind = n.kind := by cases n; rfl
  induction k generalizing v with
  | zero => exact ⟨fun _ => .here _, fun _ => .here _⟩
  | succ k ih =>
    constructor
    · intro h
      cases v with
      | node n =>
        cases h with
        | right hbinary hright h =>
          rw [Node.get?_mapSpans] at hright
          obtain ⟨w, hw, rfl⟩ := Option.map_eq_some_iff.1 hright
          rw [hkind] at hbinary
          exact .right hbinary hw (ih.1 h)
      | _ => cases h
    · intro h
      cases h with
      | right hbinary hright h =>
        refine .right ?_ ?_ (ih.2 h)
        · rw [hkind, hbinary]
        · rw [Node.get?_mapSpans, hright]
          rfl

theorem operation (h : v.Leans k) (span : Span) (operator : TokenValue) (left : Value) :
    (operation span operator left v).Leans (k + 1) :=
  .right rfl (Node.get?_insert_self ..) h

end Value.Leans

/-! ## Rows of one operator -/

/-- An operator and an operand, again and again. -/
def repeated (l w : Lexeme) (n : Nat) : List Lexeme := (List.replicate n [l, w]).flatten

theorem repeated_succ (l w : Lexeme) (n : Nat) :
    repeated l w (n + 1) = l :: w :: repeated l w n := rfl

theorem le_length_repeated (l w : Lexeme) (n : Nat) : n ≤ (repeated l w n).length := by
  induction n with
  | zero => exact Nat.zero_le _
  | succ n ih =>
    rw [repeated_succ, List.length_cons, List.length_cons]
    omega

section

variable {x : Tokenized} {E : Stop → Prop} {run : Parse x.lexer Outcome} {tiers : List Tier}
  {l w : Lexeme} {tier : Nat} {floor : Option Nat} {fuel n : Nat}

/-- At the end of the text the loop ends with what it has. -/
theorem reads_expressionFrom_nil (start : Position) (left : Value) :
    Reads E [] (expressionFrom run tiers (fuel + 1) floor start left) fun o rest =>
      rest = [] ∧ o = .withData left := by
  refine reads_operatorAbove?.bind fun r rest ⟨hrest, hr⟩ => ?_
  subst hrest
  cases r with
  | none => exact reads_pure ⟨rfl, rfl⟩
  | some found =>
    obtain ⟨l, mid, hts, -⟩ := hr found.1 found.2 rfl
    cases hts

variable (ht : tierFor? tiers l = some tier)
  (hside : tiers[tier]?.map (·.associativity) = some .right)
include ht hside

/-- An operator above the floor that comes next is the one that is taken. -/
theorem reads_operatorAbove?_cons (hfloor : waits floor tier = false) (rest : List Lexeme) :
    Reads E (l :: rest) (operatorAbove? tiers floor : Parse x.lexer _) fun r mid =>
      mid = l :: rest ∧ r = some (tier, .right) := by
  refine reads_peek.bind fun found mid ⟨hmid, hfound⟩ => ?_
  subst hmid
  cases found with
  | none => cases hfound
  | some token =>
    obtain rfl : token.content = l := Option.some.inj hfound
    obtain ⟨t, hget, hright⟩ := Option.map_eq_some_iff.1 hside
    simp only [tierOf?_eq_tierFor?, ht, hfloor, hget, Option.map_some, hright]
    exact reads_pure ⟨rfl, rfl⟩

/-- The row of an operator that groups to the right becomes one chain. -/
theorem reads_leaning
    (hrun : ∀ rest, Finds E (w :: rest) run (fun _ last => last = rest) False)
    (hfloor : waits floor tier = false) (hfuel : n < fuel) (start : Position) (left : Value) :
    Reads E (repeated l w n) (expressionFrom run tiers fuel floor start left) fun o rest =>
      rest = [] ∧ ∃ v, o = .withData v ∧ v.Leans n := by
  induction n generalizing fuel floor start left with
  | zero =>
    obtain ⟨fuel, rfl⟩ := Nat.exists_eq_add_of_lt hfuel
    rw [Nat.zero_add]
    exact Reads.mono (reads_expressionFrom_nil start left) fun o rest ⟨hrest, ho⟩ =>
      ⟨hrest, left, ho, .here left⟩
  | succ n ih =>
    obtain ⟨fuel, rfl⟩ : ∃ k, fuel = k + 1 := ⟨fuel - 1, by omega⟩
    rw [repeated_succ]
    refine (reads_operatorAbove?_cons ht hside hfloor _).bind fun r mid ⟨hmid, hr⟩ => ?_
    subst hmid hr
    refine reads_get_bind fun s _ => reads_next.bind fun found mid ⟨hmid, hfound⟩ => ?_
    subst hmid
    cases found with
    | none => cases hfound
    | some token =>
      have hbehind : waits (floorBehind tier .right) tier = false := by
        rw [Bool.eq_false_iff, ne_eq, waits_floorBehind]
        intro h
        rcases h with h | ⟨-, h⟩
        · omega
        · cases h
      -- The rest of the row is the right operand.
      have hright : Reads E (w :: repeated l w n)
          (operandThen run (expressionFrom run tiers fuel (floorBehind tier .right)))
          fun o rest => rest = [] ∧ ∃ v, o = .withData v ∧ v.Leans n := by
        refine reads_operandThen (hrun _) (fun _ _ _ h => h.elim) ?_
        intro start' v rest hrest
        rw [hrest]
        exact ih hbehind (by omega) start' v
      refine hright.bind fun o mid ⟨hmid, v, ho, hv⟩ => ?_
      subst hmid ho
      refine reads_get_bind fun s _ => ?_
      obtain ⟨fuel, rfl⟩ : ∃ k, fuel = k + 1 := ⟨fuel - 1, by omega⟩
      refine Reads.mono (reads_expressionFrom_nil start _) fun o rest ⟨hrest, ho⟩ => ?_
      exact ⟨hrest, _, ho, hv.operation _ _ left⟩

/-- An expression of one operator that groups to the right is one chain. -/
theorem finds_leaning (hrun : ∀ rest, Finds E (w :: rest) run (fun _ last => last = rest) False) :
    Reads E (w :: repeated l w n) (binaryBody run tiers) fun o _ =>
      ∃ v, o = .withData v ∧ v.Leans n := by
  refine reads_operandThen (hrun _) (fun _ _ _ h => h.elim) ?_
  intro start v rest hrest
  subst hrest
  refine reads_get_bind fun s hs => ?_
  have hfuel := Nat.le_trans (le_length_repeated l w n) hs.length_le_unread
  exact Reads.mono (reads_leaning ht hside hrun rfl (by omega) start v) fun o rest ho => ho.2

end

/-! ## Powers of powers -/

/-- Sums of powers of words, under three levels: for the rule, for the expression, and for a
word. -/
def sums : Grammar where
  rules := [
    { name := "sum", kind := some "sum",
      segments := [(Segment.binary (.ofKind "word") sumTiers).keyed "terms"] }]
  maxDepth := 3

/-- A word and powers of it. -/
def powers (n : Nat) : String := String.ofList ('a' :: (List.replicate n ['^', 'a']).flatten)

def aWord : Lexeme := ("word", .text "a")

def aPower : Lexeme := ("sign", .text "^")

theorem tokenizes_powers (n : Nat) {c : Cursor}
    (hc : c.rest = (List.replicate n ['^', 'a']).flatten) :
    ∃ tokens, wordsAndSigns.Tokenizes c (.ok tokens) ∧
      tokens.map Token.content = repeated aPower aWord n := by
  induction n generalizing c with
  | zero => exact ⟨[], .finished (by rw [Cursor.atEnd, hc]; rfl), rfl⟩
  | succ n ih =>
    have hbehind : ((c.skip 1).skip 1).rest = (List.replicate n ['^', 'a']).flatten := by
      rw [Cursor.rest_skip, Cursor.rest_skip, hc]
      rfl
    obtain ⟨tokens, htokens, hcontent⟩ := ih hbehind
    obtain ⟨text, rest, byte, position⟩ := c
    obtain rfl : rest = '^' :: 'a' :: (List.replicate n ['^', 'a']).flatten := hc
    refine ⟨_ :: _ :: tokens, .token rfl rfl rfl (.token (r := .ok tokens) rfl rfl rfl htokens), ?_⟩
    rw [List.map_cons, List.map_cons, hcontent]
    rfl

theorem tokenize_powers (n : Nat) :
    ∃ tokens, wordsAndSigns.tokenize (powers n) = .ok tokens ∧
      tokens.map Token.content = aWord :: repeated aPower aWord n := by
  let signs := (List.replicate n ['^', 'a']).flatten
  have hrest : (Cursor.ofString (powers n)).rest = 'a' :: signs := String.toList_ofList
  have hbehind : ((Cursor.ofString (powers n)).skip 1).rest = signs := by
    rw [Cursor.rest_skip, hrest]
    rfl
  obtain ⟨tokens, htokens, hcontent⟩ := tokenizes_powers n hbehind
  have hall : ∃ t, t.content = aWord ∧
      wordsAndSigns.Tokenizes (.ofString (powers n)) (.ok (t :: tokens)) := by
    generalize Cursor.ofString (powers n) = c at hrest htokens
    obtain ⟨text, rest, byte, position⟩ := c
    obtain rfl : rest = 'a' :: signs := hrest
    exact ⟨_, rfl, .token (r := .ok tokens) rfl rfl rfl htokens⟩
  obtain ⟨t, ht, hall⟩ := hall
  refine ⟨t :: tokens, (Lexer.tokenizes_tokenize wordsAndSigns (powers n)).eq hall, ?_⟩
  rw [List.map_cons, ht, hcontent]

theorem Value.Leans.shows {n : Nat} {v : Value} (h : v.Leans (n + 1)) :
    (Outcome.withData v).Shows { data := some v.bare } := by
  refine ⟨rfl, rfl, rfl, rfl, ?_⟩
  intro m hm hkind
  cases h with
  | right hbinary =>
    cases hm
    rw [hkind] at hbinary
    cases hbinary

section

variable {x : Tokenized} {E : Stop → Prop} {n : Nat}

theorem finds_word (rest : List Lexeme) : Finds (x := x) E (aWord :: rest)
    ((Segment.ofKind "word").runWithin sums 1) (fun _ last => last = rest) False := by
  refine (runs_succ rfl (M := fun _ last => last = rest) (finds_tokenBody
    (p := fun l => l.1 == "word") (g := fun l => { data := some l.2.toValue })
    (fun t => rfl) (fun t => shows_token t.value) ?_ ?_) fun _ _ h => h).finds
  · intro l last hl _
    exact (List.cons.inj hl).2.symm
  · intro h
    have hrejected := h aWord rest rfl
    simp [aWord] at hrejected

theorem runs_terms : Runs (x := x) E (aWord :: repeated aPower aWord (n + 1))
    (((Segment.binary (.ofKind "word") sumTiers).keyed "terms").runWithin sums 2)
    (fun f _ => ∃ v, f = ⟨some v, some "terms"⟩ ∧ v.Leans (n + 1)) False := by
  refine runs_succ rfl (M := fun f _ => ∃ v, f = ⟨some v, none⟩ ∧ v.Leans (n + 1)) ?_ ?_
  · have htier : tierFor? sumTiers aPower = some 1 := rfl
    have hloop := finds_leaning (x := x) (E := E) (n := n + 1) htier rfl finds_word
    refine Reads.mono hloop fun o rest ⟨v, ho, hv⟩ => ?_
    subst ho
    exact Or.inr ⟨_, hv.shows, v.bare, rfl, Value.Leans.bare_iff.2 hv⟩
  · intro f rest ⟨v, hf, hv⟩
    subst hf
    exact ⟨v, rfl, hv⟩

/-- The rule puts the expression into a field. -/
theorem runs_sum : Runs (x := x) E (aWord :: repeated aPower aWord (n + 1))
    (Segment.runWithin sums 3 (Rule.toSegment sums.rules[0]))
    (fun f _ => ∃ v m, f.data = some (.node m) ∧ m.get? "terms" = some v ∧ v.Leans (n + 1))
    False := by
  refine runs_succ rfl (M := fun f _ => ∃ v m, f.data = some (.node m) ∧
    m.get? "terms" = some v ∧ v.Leans (n + 1)) ?_ fun _ _ h => h
  refine Reads.bind (R := fun r _ => ∃ d b v, r = .ok d ∧ d.Shows b ∧
    b = { node := ({} : Node).insert "terms" v } ∧ v.Leans (n + 1)) ?_ ?_
  · refine runs_terms.bind fun o mid ho => ?_
    rcases ho with ⟨-, -, h⟩ | ⟨f, hf, -, v, hv, hleans⟩
    · exact h.elim
    · subst hv
      rw [if_pos hf.isMatch]
      refine reads_get_bind fun s _ => ?_
      obtain ⟨d, hd, hshows⟩ := Draft.Shows.empty.add hf (.field (by decide) rfl) s.lastEnd
      rw [show sums.rules[0].nesting = .inherit from rfl, hd]
      exact reads_pure ⟨d, _, v, rfl, hshows, rfl, hleans⟩
  · intro r rest ⟨d, b, v, hr, hshows, hb, hv⟩
    subst hr hb
    have hclose := hshows.close (some "sum")
    rw [← id_eq (d.close (some "sum")), ← Option.map_id_fun, ← Outcome.mapData_ofData?] at hclose
    exact finds_of_finding hclose ⟨v, _, rfl, rfl, hv⟩

end

/-- Each power is the right operand of the one before, and three levels are enough for it. -/
theorem parse_powers (n : Nat) :
    ∃ v s', sums.parseText wordsAndSigns "sum" (powers (n + 1)) = .ok v s' ∧
      ∃ ns : List Node, ns.length = n + 1 ∧ Rightward ns ∧
        ∀ m ∈ ns, m.Inside v ∧ m.kind = some binaryKind := by
  obtain ⟨tokens, htokens, hcontent⟩ := tokenize_powers (n + 1)
  let x : Tokenized := .ofTokenize htokens
  have hrun := runs_sum (x := x) (E := fun _ => False) (n := n)
  rw [← hcontent] at hrun
  have hroot : sums.find? "sum" = some sums.rules[0] := rfl
  rcases parse_of_runs (x := x) hroot hrun with
    ⟨e, s, -, h⟩ | ⟨v, s', f, rest, hparse, ⟨w, m, hf, hw, hleans⟩, hv⟩
  · rcases h with h | h <;> exact h.elim
  · refine ⟨v, s', hparse, ?_⟩
    rw [hf, Option.getD_some] at hv
    cases v with
    | node k =>
      obtain rfl : k.bare = m := by injection hv
      rw [Node.bare, Node.get?_mapSpans] at hw
      obtain ⟨u, hu, rfl⟩ := Option.map_eq_some_iff.1 hw
      obtain ⟨ns, hlength, hchain, -, hall⟩ := (Value.Leans.bare_iff.1 hleans).exists_rightward
      refine ⟨ns, hlength, hchain, ?_⟩
      intro m hm
      exact ⟨.field (Fields.mem_of_lookup hu) (hall m hm).1, (hall m hm).2⟩
    | _ => cases hv

end Descent
