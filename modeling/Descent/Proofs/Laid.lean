import Descent.Proofs.Nodes
import Descent.Run.Precedence

/-!
# Trees that lie in the order of their tokens

A tree lies between two places of a text if its tagged nodes do, each between two places of its own
and with all that is in it between these two. The nodes of a list lie one behind the other, and the
operands of an operator to its left and to its right. `S i j` are the spans that a node between `i`
and `j` may have.

* `Value.Laid.inside`: what is said of a tree is said of all nodes inside.
* `Value.laid_append`, `laid_operation`, `laid_leafNode`: what runs build.
* `Draft.Laid.add`, `Draft.Laid.close`: rules that tag what they are given.
* `Draft.Whole.add`, `Draft.Whole.close`: rules that pass on what is tagged already.
-/
namespace Descent

/-- The tree lies between the two places. An untagged node only holds its fields together. -/
inductive Value.Laid (S : Nat → Nat → Span → Prop) : Nat → Nat → Value → Prop
  | null {i j : Nat} : Laid S i j .null
  | number {i j : Nat} (x : Float) : Laid S i j (.number x)
  | text {i j : Nat} (s : String) : Laid S i j (.text s)
  | nil {i j : Nat} (hij : i ≤ j) : Laid S i j (.list [])
  | cons {i k j : Nat} {v : Value} {vs : List Value} (hik : i ≤ k) (hv : Laid S i k v)
    (hvs : Laid S k j (.list vs)) : Laid S i j (.list (v :: vs))
  | untagged {i j : Nat} {n : Node} (hkind : n.kind = none) (hspan : n.span = none)
    (hfields : ∀ p ∈ n.fields, Laid S i j p.2) : Laid S i j (.node n)
  /-- Between the operands of an operator lies the token at `m`. -/
  | tagged {i j a b m : Nat} {n : Node} {kind : String} {span : Span} (hia : i ≤ a) (hbj : b ≤ j)
    (hkind : n.kind = some kind) (hspan : n.span = some span) (hS : S a b span)
    (hfields : ∀ p ∈ n.fields, Laid S a b p.2)
    (hleft : kind = binaryKind → ∀ v, (leftName, v) ∈ n.fields → Laid S a m v)
    (hright : kind = binaryKind → ∀ v, (rightName, v) ∈ n.fields → Laid S (m + 1) b v) :
    Laid S i j (.node n)

variable {S : Nat → Nat → Span → Prop} {i j k : Nat} {v : Value} {n : Node}

namespace Value

theorem laid_toValue (x : TokenValue) : x.toValue.Laid S i j := by
  cases x with
  | text s => exact .text s
  | number x => exact .number x

namespace Laid

theorem mono {i' j' : Nat} (h : v.Laid S i j) (hi : i' ≤ i) (hj : j ≤ j') : v.Laid S i' j' := by
  induction h generalizing i' j' with
  | null => exact .null
  | number x => exact .number x
  | text s => exact .text s
  | nil hij => exact .nil (Nat.le_trans hi (Nat.le_trans hij hj))
  | cons hik _ _ ihv ihvs =>
    exact .cons (Nat.le_trans hi hik) (ihv hi (Nat.le_refl _)) (ihvs (Nat.le_refl _) hj)
  | untagged hkind hspan _ ih => exact .untagged hkind hspan fun p hp => ih p hp hi hj
  | tagged hia hbj hkind hspan hS hfields hleft hright =>
    exact .tagged (Nat.le_trans hi hia) (Nat.le_trans hbj hj) hkind hspan hS hfields hleft hright

/-! ### What is inside -/

theorem field (h : (Value.node n).Laid S i j) {p : String × Value} (hp : p ∈ n.fields) :
    p.2.Laid S i j := by
  cases h with
  | untagged _ _ hfields => exact hfields p hp
  | tagged hia hbj _ _ _ hfields => exact (hfields p hp).mono hia hbj

theorem le_of_list {items : List Value} (h : (Value.list items).Laid S i j) : i ≤ j := by
  induction items generalizing i with
  | nil =>
    cases h with
    | nil hij => exact hij
  | cons w ws ih =>
    cases h with
    | cons hik _ hws => exact Nat.le_trans hik (ih hws)

theorem item {items : List Value} (h : (Value.list items).Laid S i j) (hv : v ∈ items) :
    v.Laid S i j := by
  induction items generalizing i with
  | nil => cases hv
  | cons w ws ih =>
    cases h with
    | cons hik hw hws =>
      rcases List.mem_cons.1 hv with rfl | hv
      · exact hw.mono (Nat.le_refl i) hws.le_of_list
      · exact (ih hws hv).mono hik (Nat.le_refl j)

/-- Of two items the first lies before a place behind which the second lies. -/
theorem pairwise {items : List Value} (h : (Value.list items).Laid S i j) :
    items.Pairwise fun v w => ∃ k, v.Laid S i k ∧ w.Laid S k j := by
  induction items generalizing i with
  | nil => exact .nil
  | cons v vs ih =>
    cases h with
    | cons hik hv hvs =>
      refine .cons (fun w hw => ⟨_, hv, hvs.item hw⟩) ((ih hvs).imp fun ⟨k, hv, hw⟩ => ?_)
      exact ⟨k, hv.mono hik (Nat.le_refl k), hw⟩

/-- What lies between two places has all its nodes there, and in their order. -/
theorem inside {m : Node} (h : v.Laid S i j) (hm : m.Inside v) : (Value.node m).Laid S i j := by
  induction hm with
  | self => exact h
  | item hv _ ih => exact ih (h.item hv)
  | field hv _ ih => exact ih (h.field hv)

/-- A tagged node has a span between the two places. -/
theorem exists_span (h : (Value.node n).Laid S i j) (hkind : n.kind.isSome = true) :
    ∃ a b span, i ≤ a ∧ b ≤ j ∧ n.span = some span ∧ S a b span := by
  cases h with
  | untagged hnone => rw [hnone] at hkind; cases hkind
  | tagged hia hbj _ hspan hS => exact ⟨_, _, _, hia, hbj, hspan, hS⟩

/-- A span that is given to the data of a run changes nothing in it. -/
theorem located_eq (h : v.Laid S i j) (span : Span) : Outcome.located span v = v := by
  cases h with
  | untagged hkind => simp [Outcome.located, hkind]
  | tagged _ _ _ hspan => simp [Outcome.located, hspan]
  | _ => rfl

/-- A node that has some of the fields lies there, too. -/
theorem of_fields {m : Node} (h : (Value.node n).Laid S i j) (hkind : m.kind = n.kind)
    (hspan : m.span = n.span) (hfields : ∀ p ∈ m.fields, p ∈ n.fields) :
    (Value.node m).Laid S i j := by
  cases h with
  | untagged hk hs h =>
    exact .untagged (hkind.trans hk) (hspan.trans hs) fun p hp => h p (hfields p hp)
  | tagged hia hbj hk hs hS h hleft hright =>
    exact .tagged hia hbj (hkind.trans hk) (hspan.trans hs) hS (fun p hp => h p (hfields p hp))
      (fun hb v hv => hleft hb v (hfields _ hv)) (fun hb v hv => hright hb v (hfields _ hv))

end Laid

/-! ### What runs build -/

theorem laid_append {vs ws : List Value} (hvs : (Value.list vs).Laid S i k)
    (hws : (Value.list ws).Laid S k j) : (Value.list (vs ++ ws)).Laid S i j := by
  induction vs generalizing i with
  | nil => exact hws.mono hvs.le_of_list (Nat.le_refl j)
  | cons v vs ih =>
    cases hvs with
    | cons hik hv hvs => exact .cons hik hv (ih hvs)

theorem laid_singleton (hij : i ≤ j) (hv : v.Laid S i j) : (Value.list [v]).Laid S i j :=
  .cons hij hv (.nil (Nat.le_refl j))

theorem laid_toList {data : Option Value} (hij : i ≤ j) (h : ∀ v, data = some v → v.Laid S i j) :
    (Value.list data.toList).Laid S i j := by
  cases data with
  | none => exact .nil hij
  | some v => exact laid_singleton hij (h v rfl)

theorem laid_getD {data : Option Value} (h : ∀ v, data = some v → v.Laid S i j) :
    (data.getD .null).Laid S i j := by
  cases data with
  | none => exact .null
  | some v => exact h v rfl

end Value

theorem laid_leafNode {t : Token} (h : S i j t.span) : (leafNode t).Laid S i j := by
  have hfield {p : String × Value} (hp : p ∈ [(valueName, t.value.toValue)]) :
      p = (valueName, t.value.toValue) := List.mem_singleton.1 hp
  refine .tagged (Nat.le_refl i) (Nat.le_refl j) rfl rfl h (m := 0) (fun p hp => ?_)
    (fun _ v hv => ?_) fun _ v hv => ?_
  · rw [hfield hp]
    exact Value.laid_toValue _
  · exact absurd (congrArg Prod.fst (hfield hv)) (show leftName ≠ valueName by decide)
  · exact absurd (congrArg Prod.fst (hfield hv)) (show rightName ≠ valueName by decide)

/-- An operator lies between its operands. -/
theorem laid_operation {m : Nat} {span : Span} {left right : Value} (hspan : S i j span)
    (hleft : left.Laid S i m) (hright : right.Laid S (m + 1) j) (him : i ≤ m) (hmj : m < j)
    (operator : TokenValue) : (operation span operator left right).Laid S i j := by
  have hfield {p : String × Value} (hp : p ∈ Fields.insert rightName right
      (Fields.insert leftName left (Fields.insert operatorName operator.toValue []))) :
      p = (rightName, right) ∨ p = (leftName, left) ∨ p = (operatorName, operator.toValue) :=
    (Fields.mem_insert hp).imp_right fun hp => (Fields.mem_insert hp).imp_right List.mem_singleton.1
  refine .tagged (Nat.le_refl i) (Nat.le_refl j) rfl rfl hspan (m := m) (fun p hp => ?_)
    (fun _ v hv => ?_) fun _ v hv => ?_
  · rcases hfield hp with rfl | rfl | rfl
    · exact hright.mono (Nat.le_succ_of_le him) (Nat.le_refl j)
    · exact hleft.mono (Nat.le_refl i) (Nat.le_of_lt hmj)
    · exact Value.laid_toValue _
  · rcases hfield hv with h | h | h <;> obtain ⟨hname, rfl⟩ := Prod.mk.inj h
    · exact absurd hname (by decide)
    · exact hleft
    · exact absurd hname (by decide)
  · rcases hfield hv with h | h | h <;> obtain ⟨hname, rfl⟩ := Prod.mk.inj h
    · exact hright
    · exact absurd hname (by decide)
    · exact absurd hname (by decide)

/-! ## Drafts -/

/-- What was put into the draft lies between the two places. -/
structure Draft.Laid (S : Nat → Nat → Span → Prop) (i j : Nat) (d : Draft) : Prop where
  fields : ∀ p ∈ d.node.fields, p.2.Laid S i j
  passed : ∀ v, d.passed = some v → v.Laid S i j

/-- So does the node of the draft, as it is. -/
structure Draft.Whole (S : Nat → Nat → Span → Prop) (i j : Nat) (d : Draft) : Prop where
  node : (Value.node d.node).Laid S i j
  passed : ∀ v, d.passed = some v → v.Laid S i j

variable {d d' : Draft} {o : Outcome} {policy : Nesting} {position : Position}

theorem Draft.add_of_data?_eq_none (h : o.data? = none) :
    d.add o policy position = .ok d := by
  rw [Draft.add, h]

namespace Draft.Laid

theorem empty : Draft.Laid S i j {} := ⟨nofun, nofun⟩

theorem mono {j' : Nat} (h : d.Laid S i j) (hj : j ≤ j') : d.Laid S i j' :=
  ⟨fun p hp => (h.fields p hp).mono (Nat.le_refl i) hj,
    fun v hv => (h.passed v hv).mono (Nat.le_refl i) hj⟩

theorem insert (h : d.Laid S i j) {key : String} (hv : v.Laid S i j) {p : String × Value}
    (hp : p ∈ (d.node.insert key v).fields) : p.2.Laid S i j := by
  rcases Fields.mem_insert hp with rfl | hp
  · exact hv
  · exact h.fields p hp

theorem adopt (h : d.Laid S i j) (hn : (Value.node n).Laid S i j) : (d.adopt n).Laid S i j := by
  refine ⟨fun p hp => ?_, h.passed⟩
  rcases Fields.mem_foldl_insert hp with hp | hp
  · exact h.fields p hp
  · exact hn.field hp

/-- What is put under a key again lies behind what is there. -/
theorem store (h : d.Laid S i k) (hik : i ≤ k) (hkj : k ≤ j) {key : String}
    (hv : v.Laid S k j) (hd : d.store key v position = .ok d') : d'.Laid S i j := by
  have hlater := h.mono hkj
  unfold Draft.store at hd
  split at hd
  · cases hd
  · split at hd
    · cases hd
      exact ⟨fun p hp => hlater.insert (hv.mono hik (Nat.le_refl j)) hp, hlater.passed⟩
    · next first hfirst =>
      have hold : first.Laid S i k := h.fields _ (Fields.mem_of_lookup hfirst)
      have hlast := Value.laid_singleton hkj hv
      split at hd
      · cases hd
        exact ⟨fun p hp => hlater.insert (Value.laid_append hold hlast) hp, hlater.passed⟩
      · cases hd
        exact ⟨fun p hp => hlater.insert (.cons hik hold hlast) hp, hlater.passed⟩

/-- However a rule puts in what a segment has given. -/
theorem add (h : d.Laid S i k) (hik : i ≤ k) (hkj : k ≤ j)
    (ho : ∀ v, o.data? = some v → v.Laid S k j) (hd : d.add o policy position = .ok d') :
    d'.Laid S i j := by
  have hlater := h.mono hkj
  have hdata {v : Value} (hv : o.data? = some v) : v.Laid S i j :=
    (ho v hv).mono hik (Nat.le_refl j)
  unfold Draft.add at hd
  split at hd
  · cases hd; exact hlater
  · next n hn _ => cases hd; exact hlater.adopt (hdata hn)
  · next n key hn _ =>
    split at hd
    · cases hd; exact hlater.adopt (hdata hn)
    · exact h.store hik hkj (ho _ hn) hd
  · next w key _ hw _ => exact h.store hik hkj (ho w hw) hd
  · next w _ hw _ =>
    cases hd
    exact ⟨hlater.fields, fun v hv => Option.some.inj hv ▸ hdata hw⟩

/-- What a rule has tagged gets the span of all that it has passed. -/
theorem close (h : d.Laid S i j) {kind : String} (hkind : kind ≠ binaryKind)
    (hv : d.close (some kind) = some v) {span : Span} (hspan : S i j span) :
    (Outcome.located span v).Laid S i j := by
  have htag {n : Node} (hk : n.kind = some kind) (hs : n.span = none)
      (hfields : ∀ p ∈ n.fields, p.2.Laid S i j) :
      (Outcome.located span (.node n)).Laid S i j := by
    simp only [Outcome.located, hk, hs, Option.isSome_some, Option.isNone_none, Bool.and_true,
      if_true]
    exact .tagged (m := 0) (Nat.le_refl i) (Nat.le_refl j) rfl rfl hspan hfields
      (fun hb => absurd hb hkind) fun hb => absurd hb hkind
  simp only [Draft.close] at hv
  split at hv
  · cases hv
    exact htag rfl rfl h.fields
  · next w hw =>
    split at hv <;> cases hv
    · exact htag rfl rfl fun p hp => h.insert (h.passed w hw) hp
    · exact htag rfl rfl h.fields

end Draft.Laid

/-- What is put under a key changes neither the kind nor the span. -/
theorem Draft.tag_of_store {key : String} (h : d.store key v position = .ok d') :
    d'.node.kind = d.node.kind ∧ d'.node.span = d.node.span := by
  unfold Draft.store at h
  split at h
  · cases h
  · split at h
    · cases h; exact ⟨rfl, rfl⟩
    · split at h <;> cases h <;> exact ⟨rfl, rfl⟩

/-- Data under a key of its own leaves the kind and the span alone, too. -/
theorem Draft.tag_of_add (hkey : o.key.isSome = true) (hnest : o.nesting.under policy ≠ .merge)
    (h : d.add o policy position = .ok d') :
    d'.node.kind = d.node.kind ∧ d'.node.span = d.node.span := by
  unfold add at h
  split at h
  · cases h; exact ⟨rfl, rfl⟩
  · next hnone => rw [hnone] at hkey; cases hkey
  · rw [if_neg hnest] at h; exact tag_of_store h
  · exact tag_of_store h
  · next hnone => rw [hnone] at hkey; cases hkey

namespace Draft.Whole

theorem of_laid (h : d.Laid S i j) (hkind : d.node.kind = none) (hspan : d.node.span = none) :
    d.Whole S i j := ⟨.untagged hkind hspan h.fields, h.passed⟩

theorem mono {j' : Nat} (h : d.Whole S i j) (hj : j ≤ j') : d.Whole S i j' :=
  ⟨h.node.mono (Nat.le_refl i) hj, fun v hv => (h.passed v hv).mono (Nat.le_refl i) hj⟩

/-- What is the first and only thing that a rule is given stays as it is. -/
theorem add (hij : i ≤ j) (ho : ∀ v, o.data? = some v → v.Laid S i j)
    (h : ({} : Draft).add o policy position = .ok d) : d.Whole S i j := by
  have hadopt {n : Node} (hn : (Value.node n).Laid S i j) : (({} : Draft).adopt n).Whole S i j := by
    refine ⟨hn.of_fields rfl rfl fun p hp => ?_, nofun⟩
    exact (Fields.mem_foldl_insert hp).resolve_left List.not_mem_nil
  have hstore {key : String} {v : Value} (hv : v.Laid S i j)
      (h : ({} : Draft).store key v position = .ok d) : d.Whole S i j := by
    have htag := tag_of_store h
    exact of_laid (Laid.empty.store (Nat.le_refl i) hij hv h) htag.1 htag.2
  unfold Draft.add at h
  split at h
  · cases h; exact of_laid .empty rfl rfl
  · next hn _ => cases h; exact hadopt (ho _ hn)
  · next hn _ =>
    split at h
    · cases h; exact hadopt (ho _ hn)
    · exact hstore (ho _ hn) h
  · next hw _ => exact hstore (ho _ hw) h
  · next w _ hw _ =>
    cases h
    exact ⟨.untagged rfl rfl nofun, fun v hv => Option.some.inj hv ▸ ho w hw⟩

/-- A rule without a kind hands its draft on. -/
theorem close (h : d.Whole S i j) (hv : d.close none = some v) : v.Laid S i j := by
  simp only [Draft.close] at hv
  split at hv
  · exact h.passed v hv
  · cases hv; exact h.node

end Draft.Whole

end Descent
