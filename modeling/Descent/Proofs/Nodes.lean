import Descent.Run.Segment

/-!
# Nodes at any depth

`Value.All N` says that every node of a tree, at any depth, is one of `N`. Runs build trees from the
nodes of tokens and of operators, and from drafts, to which nodes are added whole, field by field or
merged. What all of these steps keep (`Heritable`) holds throughout the trees that are built. A node
that a rule has tagged gets its span only when the run of the rule is over; until then the tree is
`Due`.

* `all_list_iff`, `all_node_iff`: trees from their parts.
* `Heritable.add`, `Heritable.close`: rules that are put together.
* `Heritable.leaf`, `Heritable.operation`: the nodes of tokens and of operators.
-/
namespace Descent

/-- The node stands in the tree, at any depth. -/
inductive Node.Inside (n : Node) : Value → Prop
  | self : Inside n (.node n)
  | item {v : Value} {items : List Value} (hv : v ∈ items) (h : Inside n v) :
    Inside n (.list items)
  | field {name : String} {v : Value} {m : Node} (hv : (name, v) ∈ m.fields) (h : Inside n v) :
    Inside n (.node m)

theorem Value.exists_inside_of_span? {v : Value} {span : Span} (h : v.span? = some span) :
    ∃ n : Node, n.Inside v ∧ n.span = some span := by
  cases v with
  | node n => exact ⟨n, .self, h⟩
  | _ => cases h

theorem Node.Inside.trans {m n : Node} {v : Value} (h : n.Inside v)
    (hm : m.Inside (.node n)) : m.Inside v := by
  induction h with
  | self => exact hm
  | item hv _ ih => exact .item hv ih
  | field hv _ ih => exact .field hv ih

/-- Every node of the tree, at any depth, is one of `N`. -/
def Value.All (N : Node → Prop) (v : Value) : Prop := ∀ n : Node, n.Inside v → N n

namespace Value

variable {N : Node → Prop}

theorem all_null : Value.null.All N := nofun

theorem all_toValue (x : TokenValue) : x.toValue.All N := by
  cases x <;> exact nofun

theorem all_list_iff {items : List Value} : (Value.list items).All N ↔ ∀ v ∈ items, v.All N := by
  constructor
  · intro h v hv n hn
    exact h n (.item hv hn)
  · intro h n hn
    cases hn with
    | item hv hn => exact h _ hv n hn

theorem all_node_iff {n : Node} :
    (Value.node n).All N ↔ N n ∧ ∀ p ∈ n.fields, p.2.All N := by
  constructor
  · intro h
    refine ⟨h n .self, ?_⟩
    intro p hp m hm
    exact h m (.field hp hm)
  · intro ⟨hn, hfields⟩ m hm
    cases hm with
    | self => exact hn
    | field hv hm => exact hfields _ hv m hm

/-- The tree is as it shall be once the run that it comes from has given it its span. -/
def Due (S : Span → Prop) (N : Node → Prop) (v : Value) : Prop :=
  ∀ span, S span → (Outcome.located span v).All N

end Value

/-! ## What is handed on -/

/-- Nodes that are built from nodes of `N` are of `N` again, if they are tagged with spans of `S`
only and no field gets a reserved name but by merging. -/
structure Heritable (S : Span → Prop) (N : Node → Prop) : Prop where
  blank : N {}
  insert : ∀ {n : Node} {name : String} {v : Value}, N n → isReserved name = false →
    N (n.insert name v)
  adopt : ∀ {d : Draft} {n : Node}, N d.node → N n → N (d.adopt n).node
  tag : ∀ {n : Node} {kind : String} {span : Span}, N n → S span →
    N { n with kind := some kind, span := some span }

/-- All of the draft is of `N`. -/
structure Draft.All (N : Node → Prop) (d : Draft) : Prop where
  node : (Value.node d.node).All N
  passed : ∀ v, d.passed = some v → v.All N

theorem Fields.mem_foldl_insert {α : Type} {fields more : Fields α} {p : String × α}
    (h : p ∈ more.foldl (fun fs (name, v) => insert name v fs) fields) :
    p ∈ fields ∨ p ∈ more := by
  induction more generalizing fields with
  | nil => exact Or.inl h
  | cons q more ih =>
    rcases ih h with h | h
    · rcases mem_insert h with h | h
      · exact Or.inr (h ▸ List.mem_cons_self)
      · exact Or.inl h
    · exact Or.inr (List.mem_cons_of_mem _ h)

theorem Fields.mem_of_lookup {α : Type} {fields : Fields α} {name : String} {v : α}
    (h : fields.lookup name = some v) : (name, v) ∈ fields := by
  induction fields with
  | nil => cases h
  | cons p rest ih =>
    obtain ⟨n, w⟩ := p
    rw [List.lookup_cons] at h
    split at h
    · next hn =>
      cases h
      rw [eq_of_beq hn]
      exact List.mem_cons_self
    · exact List.mem_cons_of_mem _ (ih h)

/-- All that the draft was given is of `N`; its own node, which is not complete, may be another. -/
structure Draft.Filled (N : Node → Prop) (d : Draft) : Prop where
  fields : ∀ p ∈ d.node.fields, p.2.All N
  passed : ∀ v, d.passed = some v → v.All N

namespace Draft.Filled

variable {N : Node → Prop} {d d' : Draft}

theorem empty : Draft.Filled N {} := ⟨nofun, nofun⟩

theorem adopt (hd : d.Filled N) {n : Node} (hn : ∀ p ∈ n.fields, p.2.All N) :
    (d.adopt n).Filled N := by
  refine ⟨?_, hd.passed⟩
  intro p hp
  rcases Fields.mem_foldl_insert hp with hp | hp
  · exact hd.fields p hp
  · exact hn p hp

theorem store (hd : d.Filled N) {key : String} {data : Value} (hdata : data.All N) {p : Position}
    (h : d.store key data p = .ok d') : d'.Filled N := by
  have hinsert {v : Value} (hv : v.All N) : ∀ q ∈ (d.node.insert key v).fields, q.2.All N := by
    intro q hq
    rcases Fields.mem_insert hq with rfl | hq
    · exact hv
    · exact hd.fields q hq
  unfold Draft.store at h
  split at h
  · cases h
  · split at h
    · cases h
      exact ⟨hinsert hdata, hd.passed⟩
    · next first hfirst =>
      have hold : first.All N := hd.fields _ (Fields.mem_of_lookup hfirst)
      split at h
      · next items _ =>
        cases h
        refine ⟨hinsert (Value.all_list_iff.2 ?_), hd.passed⟩
        intro v hv
        rcases List.mem_append.1 hv with hv | hv
        · exact Value.all_list_iff.1 hold v hv
        · exact List.mem_singleton.1 hv ▸ hdata
      · cases h
        refine ⟨hinsert (Value.all_list_iff.2 ?_), hd.passed⟩
        exact List.forall_mem_cons.2 ⟨hold, List.forall_mem_singleton.2 hdata⟩

/-- However a rule puts in what a segment has given. -/
theorem add (hd : d.Filled N) {o : Outcome} (ho : ∀ v, o.data? = some v → v.All N)
    {policy : Nesting} {p : Position} (h : d.add o policy p = .ok d') : d'.Filled N := by
  have hfields {n : Node} (hdata : o.data? = some (.node n)) : ∀ p ∈ n.fields, p.2.All N :=
    (Value.all_node_iff.1 (ho _ hdata)).2
  unfold Draft.add at h
  split at h
  · cases h; exact hd
  · next n hdata _ => cases h; exact hd.adopt (hfields hdata)
  · next n key hdata _ =>
    split at h
    · cases h; exact hd.adopt (hfields hdata)
    · exact hd.store (ho _ hdata) h
  · next data key _ hdata _ => exact hd.store (ho _ hdata) h
  · next data _ hdata _ =>
    cases h
    exact ⟨hd.fields, fun v hv => Option.some.inj hv ▸ ho _ hdata⟩

end Draft.Filled

theorem Draft.all_iff {N : Node → Prop} {d : Draft} : d.All N ↔ N d.node ∧ d.Filled N := by
  constructor
  · intro h
    obtain ⟨hn, hfields⟩ := Value.all_node_iff.1 h.node
    exact ⟨hn, hfields, h.passed⟩
  · intro h
    exact ⟨Value.all_node_iff.2 ⟨h.1, h.2.fields⟩, h.2.passed⟩

/-- A draft refuses nothing but a reserved key. -/
theorem Draft.add_eq_error {d : Draft} {o : Outcome} {policy : Nesting} {p : Position}
    {e : ParseError} (h : d.add o policy p = .error e) : ∃ key, e = .reservedKey key p := by
  have hstore : ∀ {key : String} {data : Value}, d.store key data p = .error e →
      ∃ key, e = .reservedKey key p := by
    intro key data hs
    unfold store at hs
    split at hs
    · cases hs
      exact ⟨key, rfl⟩
    · split at hs
      · cases hs
      · split at hs <;> cases hs
  unfold add at h
  split at h
  · cases h
  · cases h
  · split at h
    · cases h
    · exact hstore h
  · exact hstore h
  · cases h

namespace Heritable

variable {S : Span → Prop} {N : Node → Prop}

theorem of_true (S : Span → Prop) : Heritable S fun _ => True :=
  ⟨trivial, fun _ _ => trivial, fun _ _ => trivial, fun _ _ => trivial⟩

variable (hN : Heritable S N)

include hN

theorem all_insert {n : Node} (name : String) {v : Value} (hn : (Value.node n).All N)
    (hname : isReserved name = false) (hv : v.All N) :
    (Value.node (n.insert name v)).All N := by
  rw [Value.all_node_iff] at hn ⊢
  refine ⟨hN.insert hn.1 hname, ?_⟩
  intro p hp
  rcases Fields.mem_insert hp with rfl | hp
  · exact hv
  · exact hn.2 p hp

theorem all_tag {n : Node} (kind : String) {span : Span} (hn : (Value.node n).All N)
    (hspan : S span) : (Value.node { n with kind := some kind, span := some span }).All N := by
  rw [Value.all_node_iff] at hn ⊢
  exact ⟨hN.tag hn.1 hspan, hn.2⟩

theorem all_blank : (Value.node {}).All N := by
  rw [Value.all_node_iff]
  exact ⟨hN.blank, by simp⟩

/-- A tree that is as it shall be stays so when it is given a span. -/
theorem due {v : Value} (hv : v.All N) : v.Due S N := by
  intro span hspan
  cases v with
  | node n =>
    simp only [Outcome.located]
    split
    · next h =>
      obtain ⟨kind, hkind⟩ := Option.isSome_iff_exists.1 ((Bool.and_eq_true _ _).mp h).1
      have htag := hN.all_tag kind hv hspan
      rwa [← hkind] at htag
    · exact hv
  | _ => exact hv

/-! ### Tokens and operators -/

theorem leaf {t : Token} (h : S t.span) : (leafNode t).All N :=
  hN.all_insert valueName (hN.all_tag t.kind hN.all_blank h) (by decide) (Value.all_toValue _)

theorem operation {span : Span} (hspan : S span) (operator : TokenValue) {left right : Value}
    (hleft : left.All N) (hright : right.All N) :
    (operation span operator left right).All N := by
  have htag := hN.all_tag binaryKind hN.all_blank hspan
  have hop := hN.all_insert operatorName htag (by decide) (Value.all_toValue operator)
  have hl := hN.all_insert leftName hop (by decide) hleft
  exact hN.all_insert rightName hl (by decide) hright

/-! ### Drafts -/

theorem empty : Draft.All N {} := ⟨hN.all_blank, nofun⟩

theorem store {d d' : Draft} (hd : N d.node) {key : String} {data : Value} {p : Position}
    (h : d.store key data p = .ok d') : N d'.node := by
  unfold Draft.store at h
  split at h
  · cases h
  · next hkey =>
    have hkey : isReserved key = false := by simpa using hkey
    split at h
    · cases h; exact hN.insert hd hkey
    · split at h <;> cases h <;> exact hN.insert hd hkey

/-- However a rule puts in what a segment has given. -/
theorem add {d d' : Draft} (hd : d.All N) {o : Outcome} (ho : ∀ v, o.data? = some v → v.All N)
    {policy : Nesting} {p : Position} (h : d.add o policy p = .ok d') : d'.All N := by
  rw [Draft.all_iff] at hd ⊢
  refine ⟨?_, hd.2.add ho h⟩
  have hadopt {n : Node} (hdata : o.data? = some (.node n)) : N (d.adopt n).node :=
    hN.adopt hd.1 (Value.all_node_iff.1 (ho _ hdata)).1
  unfold Draft.add at h
  split at h
  · cases h; exact hd.1
  · next n hdata _ => cases h; exact hadopt hdata
  · next n key hdata _ =>
    split at h
    · cases h; exact hadopt hdata
    · exact hN.store hd.1 h
  · exact hN.store hd.1 h
  · cases h; exact hd.1

/-- What a rule comes to is due: its tag waits for the span. -/
theorem close {d : Draft} (hd : d.All N) {kind : Option String} {v : Value}
    (h : d.close kind = some v) : v.Due S N := by
  unfold Draft.close at h
  cases kind with
  | none =>
    simp only at h
    split at h
    · exact hN.due (hd.passed v h)
    · cases h; exact hN.due hd.node
  | some kind =>
    intro span hspan
    have htag := hN.all_tag kind hd.node hspan
    simp only at h
    split at h
    · cases h; exact htag
    · next w hw =>
      split at h <;> cases h
      · exact hN.all_insert valueName htag (by decide) (hd.passed w hw)
      · exact htag

end Heritable

end Descent
