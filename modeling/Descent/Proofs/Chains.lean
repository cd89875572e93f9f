import Mathlib.Data.List.Chain
import Descent.Proofs.Grouping
import Descent.Proofs.Nodes

/-!
# Chains of right operands

A node of an operator has its right operand in a field, which may be the node of an operator again,
and so on to the right. How long such a chain gets is counted here, but for the operators among some
`words`: those that group to the right, of which a chain can have any number.

* `Node.within_succ`, `Node.within_of_operatorIn`: a node makes the chain from its right operand on
  one longer, unless its operator is one of the words.
* `OpTree.all_within`: in a tree that is grouped by tiers a chain has at most one operator of each
  tier, and ends in an operand.
* `all_within_close`: a rule makes chains longer by one.
-/
namespace Descent

/-- Each of the nodes is the right operand of the one before. -/
def Rightward (ns : List Node) : Prop := ns.IsChain fun n m => n.get? rightName = some (.node m)

/-- Is the operator of the node, if it has one, among the words? -/
def Node.operatorIn (words : List String) (n : Node) : Bool :=
  ((n.get? operatorName).bind Value.text?).any words.contains

/-- How many of the nodes have no operator among the words. -/
def counted (words : List String) (ns : List Node) : Nat := ns.countP (!·.operatorIn words)

theorem counted_nil (ns : List Node) : counted [] ns = ns.length := by
  refine List.countP_eq_length.2 ?_
  intro n _
  cases h : (n.get? operatorName).bind Value.text? <;> simp [Node.operatorIn, h]

/-- No chain from the node on counts more than `bound`. -/
def Node.Within (words : List String) (bound : Nat) (n : Node) : Prop :=
  ∀ ns, Rightward (n :: ns) → counted words (n :: ns) ≤ bound

namespace Node

variable {words : List String} {bound : Nat} {n m : Node}

theorem Within.mono (h : n.Within words bound) {more : Nat} (hle : bound ≤ more) :
    n.Within words more := fun ns hns => Nat.le_trans (h ns hns) hle

/-- Only the fields of the node count. -/
theorem Within.congr (h : n.Within words bound) (hfields : m.fields = n.fields) :
    m.Within words bound := by
  have hget (name : String) : m.get? name = n.get? name := by rw [get?, hfields, get?]
  intro ns hns
  have hop : m.operatorIn words = n.operatorIn words := by rw [operatorIn, hget, operatorIn]
  have hchain : Rightward (n :: ns) := by
    cases ns with
    | nil => exact .singleton n
    | cons k ns =>
      obtain ⟨hk, hns⟩ := List.isChain_cons_cons.1 hns
      exact .cons_cons (by rw [← hget, hk]) hns
  have hcount := h ns hchain
  unfold counted at hcount ⊢
  rwa [List.countP_cons, hop, ← List.countP_cons]

section

variable (h : ∀ k, n.get? rightName = some (.node k) → k.Within words bound)
include h

theorem counted_rest_le {ns : List Node} (hns : Rightward (n :: ns)) :
    counted words ns ≤ bound := by
  cases ns with
  | nil => exact Nat.zero_le _
  | cons k ns =>
    obtain ⟨hk, hns⟩ := List.isChain_cons_cons.1 hns
    exact h k hk ns hns

theorem within_succ : n.Within words (bound + 1) := by
  intro ns hns
  have hrest := counted_rest_le h hns
  unfold counted at hrest ⊢
  rw [List.countP_cons]
  split <;> omega

theorem within_of_operatorIn (hop : n.operatorIn words = true) : n.Within words bound := by
  intro ns hns
  have hrest := counted_rest_le h hns
  unfold counted at hrest ⊢
  rw [List.countP_cons, hop]
  simpa using hrest

end

end Node

section

variable {words : List String} {bound : Nat}

theorem Value.All.within_mono {v : Value} (h : v.All (Node.Within words bound)) {more : Nat}
    (hle : bound ≤ more) : v.All (Node.Within words more) := fun n hn => (h n hn).mono hle

/-- A node makes the chains in its fields longer by one. -/
theorem Value.all_within_node {n : Node}
    (h : ∀ p ∈ n.fields, p.2.All (Node.Within words bound)) :
    (Value.node n).All (Node.Within words (bound + 1)) := by
  rw [Value.all_node_iff]
  refine ⟨Node.within_succ ?_, fun p hp => (h p hp).within_mono (Nat.le_succ _)⟩
  intro k hk
  exact h _ (Fields.mem_of_lookup hk) k .self

/-- A span makes no chain longer. -/
theorem Value.All.within_due {S : Span → Prop} {v : Value} (h : v.All (Node.Within words bound)) :
    v.Due S (Node.Within words bound) := by
  intro span _
  cases v with
  | node n =>
    rw [Outcome.located]
    split
    · rw [Value.all_node_iff] at h ⊢
      exact ⟨h.1.congr rfl, h.2⟩
    · exact h
  | _ => exact h

/-! ## Rules -/

/-- What a rule comes to has chains longer by one than what it is put together from. -/
theorem all_within_close {d : Draft} (hd : d.Filled (Node.Within words bound))
    {kind : Option String} {v : Value} (h : d.close kind = some v) :
    v.All (Node.Within words (bound + 1)) := by
  unfold Draft.close at h
  cases kind with
  | none =>
    simp only at h
    split at h
    · exact (hd.passed v h).within_mono (Nat.le_succ _)
    · cases h
      exact Value.all_within_node hd.fields
  | some kind =>
    simp only at h
    split at h
    · cases h
      exact Value.all_within_node hd.fields
    · next w hw =>
      split at h <;> cases h
      · refine Value.all_within_node ?_
        intro p hp
        rcases Fields.mem_insert hp with rfl | hp
        · exact hd.passed w hw
        · exact hd.fields p hp
      · exact Value.all_within_node hd.fields

/-! ## Operators -/

theorem get?_operation (span : Span) (operator : TokenValue) (left right : Value) :
    ∃ n, operation span operator left right = .node n ∧
      n.get? operatorName = some operator.toValue ∧ n.get? rightName = some right ∧
      ∀ p ∈ n.fields, p.2 = operator.toValue ∨ p.2 = left ∨ p.2 = right := by
  refine ⟨_, rfl, ?_, Node.get?_insert_self .., ?_⟩
  · rw [Node.get?_insert_of_ne (by decide), Node.get?_insert_of_ne (by decide),
      Node.get?_insert_self]
  · intro p hp
    rcases Fields.mem_insert hp with rfl | hp
    · exact Or.inr (Or.inr rfl)
    · rcases Fields.mem_insert hp with rfl | hp
      · exact Or.inr (Or.inl rfl)
      · rcases Fields.mem_insert hp with rfl | hp
        · exact Or.inl rfl
        · cases hp

/-- Operators of the tiers that group to the right are among the words. -/
def GroupsRightIn (words : List String) (tiers : List Tier) : Prop :=
  ∀ tier ∈ tiers, tier.associativity = .right → ∀ operator ∈ tier.operators, operator.2 ∈ words

/-- The text of an operator that groups to the right is among the words. -/
theorem GroupsRightIn.operatorIn {tiers : List Tier} (h : GroupsRightIn words tiers) {t : Token}
    {tier : Nat} (ht : tierOf? tiers t = some tier)
    (hside : tiers[tier]?.map (·.associativity) = some .right) {n : Node}
    (hn : n.get? operatorName = some t.value.toValue) : n.operatorIn words = true := by
  obtain ⟨hlt, hcontains, -⟩ := List.findIdx?_eq_some_iff_getElem.1 ht
  rw [List.getElem?_eq_getElem hlt] at hside
  obtain ⟨⟨kind, text⟩, hmem, his⟩ := List.any_eq_true.1 hcontains
  have hword : text ∈ words :=
    h _ (List.getElem_mem hlt) (Option.some.inj hside) _ hmem
  have htext := (Token.is_iff.1 his).2
  cases hv : t.value with
  | number x => rw [hv] at htext; cases htext
  | text s =>
    rw [hv] at htext hn
    cases htext
    simp [Node.operatorIn, hn, TokenValue.toValue, Value.text?, hword]

namespace OpTree

variable {tiers : List Tier} {t : OpTree}

/-- The tiers of the operators are those of their tokens, and the chains in the operands are within
the bound. -/
structure Bounded (words : List String) (bound : Nat) (tiers : List Tier) (t : OpTree) : Prop where
  first : t.first.data.All (Node.Within words bound)
  rest : ∀ p ∈ t.rest, tierOf? tiers p.1.token = some p.1.tier ∧
    p.2.data.All (Node.Within words bound)

theorem Bounded.parts {operator : Operator} {left right : OpTree}
    (h : (node operator left right).Bounded words bound tiers) :
    tierOf? tiers operator.token = some operator.tier ∧ left.Bounded words bound tiers ∧
      right.Bounded words bound tiers := by
  have hrest := h.rest
  simp only [OpTree.rest, List.forall_mem_append, List.forall_mem_cons] at hrest
  obtain ⟨hl, ⟨hop, hr⟩, hmore⟩ := hrest
  exact ⟨hop, ⟨h.first, hl⟩, ⟨hr, hmore⟩⟩

/-- From the root to the right the tiers do not get looser, and behind an operator that groups to
the left they get tighter. -/
theorem within_value (hwords : GroupsRightIn words tiers) (hg : t.Grouped tiers)
    (ht : t.Bounded words bound tiers) {lowest : Nat}
    (hlowest : ∀ operator ∈ t.operators, lowest ≤ operator.tier) {n : Node}
    (hn : t.value = .node n) : n.Within words (bound + (tiers.length - lowest)) := by
  induction t generalizing lowest n with
  | leaf operand =>
    have hdata : operand.data = .node n := hn
    have hfirst : operand.data.All (Node.Within words bound) := ht.first
    rw [hdata] at hfirst
    exact (hfirst n .self).mono (Nat.le_add_right _ _)
  | node operator left right _ ih =>
    obtain ⟨hop, -, hr⟩ := ht.parts
    have hle : lowest ≤ operator.tier := hlowest operator (by simp)
    obtain ⟨hlt, -, -⟩ := List.findIdx?_eq_some_iff_getElem.1 hop
    obtain ⟨n', hn', hoperator, hright, -⟩ := get?_operation
      ⟨left.first.start, right.stop⟩ operator.token.value left.value right.value
    obtain rfl : n' = n := by
      have h := hn'.symm.trans hn
      injection h
    have hbelow (tighter : Nat) (htighter : ∀ inner ∈ right.operators, tighter ≤ inner.tier)
        (k : Node) (hk : n'.get? rightName = some (.node k)) :
        k.Within words (bound + (tiers.length - tighter)) :=
      ih hg.2.2.2 hr htighter (Option.some.inj (hright.symm.trans hk))
    have hget : tiers[operator.tier]? = some tiers[operator.tier] := List.getElem?_eq_getElem hlt
    cases hside : tiers[operator.tier].associativity with
    | left =>
      have htighter : ∀ inner ∈ right.operators, operator.tier + 1 ≤ inner.tier := by
        intro inner hinner
        rcases hg.2.1 inner hinner with h | ⟨-, h⟩
        · exact h
        · rw [hget, Option.map_some, hside] at h
          cases h
      refine (Node.within_succ (hbelow _ htighter)).mono ?_
      omega
    | right =>
      have htighter : ∀ inner ∈ right.operators, operator.tier ≤ inner.tier :=
        fun inner hinner => (hg.2.1 inner hinner).le
      have hword := hwords.operatorIn hop (by rw [hget, Option.map_some, hside]) hoperator
      refine (Node.within_of_operatorIn (hbelow _ htighter) hword).mono ?_
      omega

/-- Operators make the chains of their operands longer by at most one for each tier. -/
theorem all_within (hwords : GroupsRightIn words tiers) (hg : t.Grouped tiers)
    (ht : t.Bounded words bound tiers) :
    t.value.All (Node.Within words (bound + tiers.length)) := by
  induction t with
  | leaf operand => exact Value.All.within_mono ht.first (Nat.le_add_right _ _)
  | node operator left right ihl ihr =>
    obtain ⟨-, hl, hr⟩ := ht.parts
    obtain ⟨n, hn, -, -, hfields⟩ := get?_operation
      ⟨left.first.start, right.stop⟩ operator.token.value left.value right.value
    have htop := within_value hwords hg ht (fun _ _ => Nat.zero_le _) hn
    rw [show (node operator left right).value = .node n from hn, Value.all_node_iff]
    refine ⟨htop, ?_⟩
    intro p hp
    rcases hfields p hp with hp | hp | hp <;> rw [hp]
    · exact Value.all_toValue _
    · exact ihl hg.2.2.1 hl
    · exact ihr hg.2.2.2 hr

end OpTree

end

end Descent
