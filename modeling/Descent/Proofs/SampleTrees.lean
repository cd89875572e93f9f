import Descent.Proofs.Nodes
import Descent.Proofs.SampleSyntax

/-!
# The trees of the sample language

No node of a derived tree is without a kind, the lists in its fields are lists of nodes, and so are
the operands of its operators. All of this can be seen without the spans.

* `Derives.regular`: the trees of all categories.
* `regular_of_bare`: trees that differ in their spans only.
-/
namespace Descent

/-- The node has a kind, its lists hold nodes only, and if it is that of an operator, then both
operands are nodes. -/
structure Node.Regular (n : Node) : Prop where
  tagged : n.kind.isSome = true
  items : ∀ p ∈ n.fields, ∀ items, p.2 = .list items → ∀ v ∈ items, ∃ m : Node, v = .node m
  operands : n.kind = some binaryKind → ∃ left right : Node,
    n.get? leftName = some (.node left) ∧ n.get? rightName = some (.node right)

/-! ## Without spans -/

theorem Node.Inside.bare {n : Node} {v : Value} (h : n.Inside v) : n.bare.Inside v.bare := by
  induction h with
  | self => exact .self
  | item hv _ ih =>
    rw [Value.bare, Value.mapSpans, Value.mapItems_eq]
    exact .item (List.mem_map_of_mem hv) ih
  | @field name w m hv _ ih =>
    show Inside n.bare (.node m.bare)
    rw [Node.bare_eq m]
    exact .field (List.mem_map_of_mem hv) ih

theorem exists_node_of_bare {v : Value} {n : Node} (h : v.bare = .node n) :
    ∃ m : Node, v = .node m := by
  cases v with
  | node m => exact ⟨m, rfl⟩
  | _ => cases h

theorem Node.Regular.of_bare {n : Node} (h : n.bare.Regular) : n.Regular := by
  have hget {name : String} {m : Node} (hm : n.bare.get? name = some (.node m)) :
      ∃ m' : Node, n.get? name = some (.node m') := by
    rw [Node.bare, Node.get?_mapSpans] at hm
    obtain ⟨v, hv, hbare⟩ := Option.map_eq_some_iff.1 hm
    obtain ⟨m', rfl⟩ := exists_node_of_bare hbare
    exact ⟨m', hv⟩
  rw [Node.bare_eq] at h
  refine ⟨h.tagged, fun p hp items hitems v hv => ?_, fun hkind => ?_⟩
  · have hbare : (p.2).bare = .list (items.map Value.bare) := by
      rw [hitems, Value.bare, Value.mapSpans, Value.mapItems_eq]
      rfl
    obtain ⟨m, hm⟩ := h.items (p.1, p.2.bare) (List.mem_map_of_mem hp) _ hbare v.bare
      (List.mem_map_of_mem hv)
    exact exists_node_of_bare hm
  · obtain ⟨left, right, hleft, hright⟩ := h.operands hkind
    rw [← Node.bare_eq] at hleft hright
    obtain ⟨left, hleft⟩ := hget hleft
    obtain ⟨right, hright⟩ := hget hright
    exact ⟨left, right, hleft, hright⟩

/-- Whether the nodes of a tree are regular can be seen without their spans. -/
theorem regular_of_bare {v : Value} (h : v.bare.All Node.Regular) : v.All Node.Regular :=
  fun n hn => .of_bare (h n.bare hn.bare)

namespace Sample

/-! ## Trees -/

/-- A node with regular nodes only. -/
def RegularTree (v : Value) : Prop := (∃ n : Node, v = .node n) ∧ v.All Node.Regular

/-- What a regular node can have in a field: regular nodes only, and no list of anything else. -/
structure RegularField (v : Value) : Prop where
  all : v.All Node.Regular
  items : ∀ items, v = .list items → ∀ w ∈ items, ∃ m : Node, w = .node m

theorem regularField_toValue (x : TokenValue) : RegularField x.toValue :=
  ⟨Value.all_toValue x, by cases x <;> exact nofun⟩

theorem RegularTree.field {v : Value} (h : RegularTree v) : RegularField v := by
  obtain ⟨⟨n, rfl⟩, hall⟩ := h
  exact ⟨hall, nofun⟩

theorem regularField_list {vs : List Value} (h : ∀ v ∈ vs, RegularTree v) :
    RegularField (.list vs) := by
  refine ⟨Value.all_list_iff.2 fun v hv => (h v hv).2, ?_⟩
  intro items hitems v hv
  cases hitems
  exact (h v hv).1

theorem regular_tree {kind : String} {fields : List (String × Value)} (hkind : kind ≠ binaryKind)
    (h : ∀ p ∈ fields, RegularField p.2) : RegularTree (tree kind fields) := by
  have hfields : ∀ p ∈ fields.foldl (fun fs p => Fields.insert p.1 p.2 fs) [],
      RegularField p.2 := fun p hp =>
    h p ((Fields.mem_foldl_insert hp).resolve_left List.not_mem_nil)
  refine ⟨⟨_, rfl⟩, Value.all_node_iff.2 ⟨⟨rfl, ?_, ?_⟩, fun p hp => (hfields p hp).all⟩⟩
  · exact fun p hp => (hfields p hp).items
  · exact fun hbinary => absurd (Option.some.inj hbinary) hkind

/-- The tree of an expression is regular if its operands are. -/
theorem regular_value {t : OpTree} (hfirst : RegularTree t.first.data.bare)
    (hrest : ∀ entry ∈ t.rest, RegularTree entry.2.data.bare) : RegularTree t.value.bare := by
  induction t with
  | leaf operand => exact hfirst
  | node operator left right ihl ihr =>
    simp only [OpTree.rest, List.forall_mem_append, List.forall_mem_cons] at hrest
    obtain ⟨⟨l, hl⟩, hleft⟩ := ihl hfirst hrest.1
    obtain ⟨⟨r, hr⟩, hright⟩ := ihr hrest.2.1 hrest.2.2
    rw [OpTree.value, OpTree.bare_operation, hl, hr]
    rw [hl] at hleft
    rw [hr] at hright
    have hfields : ∀ p ∈ Fields.insert rightName (Value.node r) (Fields.insert leftName
        (Value.node l) (Fields.insert operatorName operator.token.value.toValue [])),
        RegularField p.2 := by
      intro p hp
      rcases Fields.mem_insert hp with rfl | hp
      · exact RegularTree.field ⟨⟨r, rfl⟩, hright⟩
      rcases Fields.mem_insert hp with rfl | hp
      · exact RegularTree.field ⟨⟨l, rfl⟩, hleft⟩
      · rw [List.mem_singleton.1 hp]
        exact regularField_toValue _
    refine ⟨⟨_, rfl⟩, Value.all_node_iff.2 ⟨⟨rfl, ?_, fun _ => ⟨l, r, ?_, ?_⟩⟩, ?_⟩⟩
    · exact fun p hp => (hfields p hp).items
    · rw [Node.get?, Fields.lookup_insert_of_ne (by decide), Fields.lookup_insert_self]
    · rw [Node.get?, Fields.lookup_insert_self]
    · exact fun p hp => (hfields p hp).all

theorem regular_of_groups {first v : Value} {row : List (Lexeme × Value)}
    (hfirst : RegularTree first) (hrow : ∀ p ∈ row, RegularTree p.2)
    (h : Groups tiers first row v) : RegularTree v := by
  obtain ⟨t, -, rfl, rfl, -, rfl⟩ := h
  exact regular_value hfirst fun entry hmem => hrow (saidOf entry) (List.mem_map_of_mem hmem)

/-! ## Derivations -/

def RegularTrees (vs : List Value) : Prop := ∀ v ∈ vs, RegularTree v

def RegularRow (row : List (Lexeme × Value)) : Prop := ∀ p ∈ row, RegularTree p.2

/-- All trees of the result are regular. -/
def Category.Regular : (c : Category) → c.Result → Prop
  | .program, v | .one _, v | .conditional, v | .atom, v => RegularTree v
  | .many _, vs | .separated _, vs | .list _, vs | .body _, vs => RegularTrees vs
  | .row, entries => RegularRow entries

theorem Derives.regular {c : Category} {ts rest : List Lexeme} {v : c.Result}
    (h : Derives c ts v rest) : c.Regular v := by
  induction h with
  | program _ ih => exact regular_tree (by decide) (by simp [regularField_list ih])
  | nothing | noItems | done => exact nofun
  | more _ _ ih ihs | comma _ _ ih ihs => exact List.forall_mem_cons.2 ⟨ih, ihs⟩
  | last _ ih => exact List.forall_mem_singleton.2 ih
  | items _ ih | closed _ ih | unclosed _ ih => exact ih
  | declaration _ ih | branch _ ih | paren _ ih => exact ih
  | classOf _ ih =>
    exact regular_tree (by decide) (by simp [regularField_toValue, regularField_list ih])
  | returnNothing => exact regular_tree (by decide) (by simp)
  | returnValue _ ih | evaluation _ ih => exact regular_tree (by decide) (by simp [ih.field])
  | letName | argument | number | string | name =>
    exact regular_tree (by decide) (by simp [regularField_toValue])
  | letValue _ ih | argumentDefault _ ih =>
    exact regular_tree (by decide) (by simp [regularField_toValue, ih.field])
  | function _ _ ihargs ihbody =>
    exact regular_tree (by decide)
      (by simp [regularField_toValue, regularField_list ihargs, regularField_list ihbody])
  | ifThen _ _ ihc ihvs =>
    exact regular_tree (by decide) (by simp [ihc.field, regularField_list ihvs])
  | ifElse _ _ _ ihc ihvs ihws =>
    exact regular_tree (by decide)
      (by simp [ihc.field, regularField_list ihvs, regularField_list ihws])
  | elseIf _ _ _ ihc ihvs ihw =>
    exact regular_tree (by decide) (by simp [ihc.field, regularField_list ihvs, ihw.field])
  | expression _ _ value ih ihrow => exact regular_of_groups ih ihrow value
  | operand _ _ _ ih ihrow => exact List.forall_mem_cons.2 ⟨ih, ihrow⟩
  | call _ ih =>
    exact regular_tree (by decide) (by simp [regularField_toValue, regularField_list ih])

end Sample

end Descent
