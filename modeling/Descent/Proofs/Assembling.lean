import Descent.Proofs.Nodes
import Descent.Proofs.Reading
import Mathlib.Data.List.Induction

/-!
# What a rule makes of its children

A rule adds the outcomes of its segments to a draft one by one. Each outcome is a part of one of
four kinds: it adds nothing, it is merged, it is stored under a key, or it is passed. What comes
together under a key is told by the parts alone: the value in the last merged node that has the key,
and everything stored under it since. One value becomes the field as it is, several become a list,
and the draft keeps apart a list that it made itself from a list that was a value.

* `Outcome.part`: what an outcome adds under a policy.
* `heldUnder`, `Part.Since`: the values under a key, and where they begin.
* `Draft.Assembled.extend`: one part more.
* `assemble_ok`, `assemble_error`: a draft of all children, or the first reserved key.
* `exists_children_of_gather`: the children of a rule.
* `assemble_children`: what the rule gives.
-/
namespace Descent

/-! ## Parts -/

theorem Fields.lookup_eq_none_iff {α : Type} {fields : Fields α} :
    (∀ key, fields.lookup key = none) ↔ fields = [] := by
  cases fields with
  | nil => simp
  | cons p rest =>
    have hp : (p :: rest).lookup p.1 = some p.2 := List.lookup_cons_self
    simp only [reduceCtorEq, iff_false, not_forall]
    exact ⟨p.1, by simp [hp]⟩

/-- What an outcome adds to a draft. -/
inductive Part where
  | nothing
  /-- The fields of a node, and its kind and span. -/
  | merged (n : Node)
  | stored (key : String) (data : Value)
  /-- What is neither a node nor has a key. -/
  | loose (data : Value)

namespace Part

/-- The value that the key has in a merged node. -/
def field? (key : String) : Part → Option Value
  | merged n => n.get? key
  | _ => none

/-- The data that is stored under the key. -/
def storedAs? (key : String) : Part → Option Value
  | stored k data => if k = key then some data else none
  | _ => none

/-- The merged node, if it has a kind. -/
def tagged? : Part → Option Node
  | merged n => if n.kind.isSome then some n else none
  | _ => none

def loose? : Part → Option Value
  | loose data => some data
  | _ => none

/-- Is it to be stored under a reserved name? -/
def isRefused : Part → Bool
  | stored key _ => isReserved key
  | _ => false

/-- Does it bring a field or a kind? -/
def collects : Part → Bool
  | merged n => n.kind.isSome || !n.fields.isEmpty
  | stored .. => true
  | _ => false

theorem collects_eq_false_iff {part : Part} : part.collects = false ↔
    part.tagged? = none ∧ ∀ key, part.field? key = none ∧ part.storedAs? key = none := by
  cases part with
  | merged n =>
    have hfields : (∀ key, n.get? key = none) ↔ n.fields = [] := Fields.lookup_eq_none_iff
    simp [collects, tagged?, field?, storedAs?, hfields]
  | stored key data =>
    simp only [collects, storedAs?, Bool.true_eq_false, false_iff, not_and, not_forall]
    exact fun _ => ⟨key, by simp⟩
  | nothing | loose => simp [collects, tagged?, field?, storedAs?]

end Part

/-- What the outcome adds under a policy: a node is merged if it has no key or if its mode says so,
and other data has no mode. -/
def Outcome.part (o : Outcome) (policy : Nesting) : Part :=
  match o.data?, o.key with
  | none, _ => .nothing
  | some (.node n), none => .merged n
  | some (.node n), some key =>
    if o.nesting.under policy = .merge then .merged n else .stored key (.node n)
  | some data, some key => .stored key data
  | some data, none => .loose data

/-- Adds a part to a draft. -/
def Draft.extend (d : Draft) (position : Position) : Part → Except ParseError Draft
  | .nothing => .ok d
  | .merged n => .ok (d.adopt n)
  | .stored key data => d.store key data position
  | .loose data => .ok { d with passed := some data }

theorem Draft.add_eq_extend (d : Draft) (o : Outcome) (policy : Nesting) (position : Position) :
    d.add o policy position = d.extend position (o.part policy) := by
  unfold Draft.add Outcome.part
  generalize o.data? = data
  generalize o.key = key
  rcases data with _ | data
  · rfl
  · cases data with
    | node n =>
      cases key with
      | none => rfl
      | some key =>
        simp only
        split <;> rfl
    | null | number | text | list => cases key <;> rfl

/-! ## What comes together under a key -/

/-- The values under a key: a merged node that has the key starts anew, and what is stored is put
behind. -/
def heldUnder (key : String) (parts : List Part) : List Value :=
  parts.foldl (fun held part =>
    match part.field? key with
    | some v => [v]
    | none => held ++ (part.storedAs? key).toList) []

/-- One value is a field as it is, and several are a list. -/
def fieldOf : List Value → Option Value
  | [] => none
  | [v] => some v
  | vs => some (.list vs)

/-- The value `first` stands under the key in the last merged node that has it, if one has, and
`since` are the parts behind that node. -/
inductive Part.Since (key : String) : List Part → Option Value → List Part → Prop
  | start {parts : List Part} (h : ∀ part ∈ parts, part.field? key = none) :
    Part.Since key parts none parts
  | behind {before since : List Part} {n : Node} {v : Value} (hn : n.get? key = some v)
    (h : ∀ part ∈ since, part.field? key = none) :
    Part.Since key (before ++ .merged n :: since) (some v) since

theorem heldUnder_append_singleton (key : String) (parts : List Part) (part : Part) :
    heldUnder key (parts ++ [part]) =
      match part.field? key with
      | some v => [v]
      | none => heldUnder key parts ++ (part.storedAs? key).toList := by
  simp only [heldUnder, List.foldl_append, List.foldl_cons, List.foldl_nil]

/-- Parts without the key in a merged node are put behind what is there. -/
theorem heldUnder_append (h : ∀ part ∈ since, part.field? key = none) (parts : List Part) :
    heldUnder key (parts ++ since) = heldUnder key parts ++ since.filterMap (·.storedAs? key) := by
  induction since using List.reverseRecOn with
  | nil => simp
  | append_singleton since part ih =>
    have hpart : part.field? key = none := h part (by simp)
    rw [← List.append_assoc, heldUnder_append_singleton, hpart,
      ih fun p hp => h p (List.mem_append_left _ hp)]
    cases hstored : part.storedAs? key <;> simp [hstored]

theorem Part.Since.heldUnder_eq {first : Option Value} (h : Part.Since key parts first since) :
    heldUnder key parts = first.toList ++ since.filterMap (·.storedAs? key) := by
  cases h with
  | start h => exact heldUnder_append h []
  | @behind before since n v hn h =>
    rw [← List.singleton_append, ← List.append_assoc, heldUnder_append h,
      heldUnder_append_singleton]
    simp [Part.field?, hn]

theorem exists_since (key : String) (parts : List Part) :
    ∃ first since, Part.Since key parts first since := by
  induction parts using List.reverseRecOn with
  | nil => exact ⟨none, [], .start (by simp)⟩
  | append_singleton parts part ih =>
    obtain ⟨first, since, h⟩ := ih
    cases hpart : part.field? key with
    | some v =>
      cases part with
      | merged n => exact ⟨some v, [], .behind hpart (by simp)⟩
      | nothing | stored | loose => cases hpart
    | none =>
      cases h with
      | start h =>
        refine ⟨none, parts ++ [part], .start ?_⟩
        simpa [or_imp, forall_and] using And.intro h hpart
      | @behind before since n v hn h =>
        refine ⟨some v, since ++ [part], ?_⟩
        rw [List.append_assoc, List.cons_append]
        exact .behind hn (by simpa [or_imp, forall_and] using And.intro h hpart)

theorem heldUnder_append_of_none {part : Part} (hfield : part.field? key = none)
    (hstored : part.storedAs? key = none) (parts : List Part) :
    heldUnder key (parts ++ [part]) = heldUnder key parts := by
  rw [heldUnder_append_singleton, hfield, hstored]
  simp

theorem heldUnder_stored_self (key : String) (data : Value) (parts : List Part) :
    heldUnder key (parts ++ [.stored key data]) = heldUnder key parts ++ [data] := by
  simp [heldUnder_append_singleton, Part.field?, Part.storedAs?]

theorem heldUnder_stored_of_ne (h : other ≠ key) :
    heldUnder other (parts ++ [.stored key data]) = heldUnder other parts :=
  heldUnder_append_of_none rfl (by simp [Part.storedAs?, h.symm]) parts

/-- Nothing comes together under a key that no part brings. -/
theorem heldUnder_eq_nil_iff : heldUnder key parts = [] ↔
    ∀ part ∈ parts, part.field? key = none ∧ part.storedAs? key = none := by
  induction parts using List.reverseRecOn with
  | nil => simp [heldUnder]
  | append_singleton parts part ih =>
    rw [heldUnder_append_singleton]
    cases hpart : part.field? key with
    | some v => simp [hpart]
    | none => simp [or_imp, forall_and, and_assoc, ih, hpart]

theorem fieldOf_eq_none_iff {held : List Value} : fieldOf held = none ↔ held = [] := by
  unfold fieldOf
  split <;> simp_all

/-! ## Drafts -/

/-- Fields that are taken over stand before those that were there. -/
theorem Fields.lookup_foldl_insert {α : Type} {more : Fields α} (h : Sorted more)
    (fields : Fields α) (key : String) :
    (more.foldl (fun fs (name, v) => insert name v fs) fields).lookup key =
      (more.lookup key).or (fields.lookup key) := by
  induction more generalizing fields with
  | nil => simp
  | cons p more ih =>
    obtain ⟨name, v⟩ := p
    obtain ⟨hlt, hmore⟩ := List.pairwise_cons.1 h
    rw [List.foldl_cons, ih hmore]
    by_cases hkey : key = name
    · subst hkey
      have hnone : more.lookup key = none := by
        rw [List.lookup_eq_none_iff]
        intro p hp
        simpa using Std.ne_of_lt (hlt p hp)
      rw [hnone, lookup_insert_self, List.lookup_cons_self]
      rfl
    · rw [lookup_insert_of_ne hkey, List.lookup_cons, beq_false_of_ne hkey]

/-- The first merged node that has a kind. -/
def firstTagged (parts : List Part) : Option Node := parts.findSome? Part.tagged?

/-- The last data that is neither a node nor has a key. -/
def lastLoose (parts : List Part) : Option Value := (parts.filterMap Part.loose?).getLast?

theorem isSome_of_firstTagged {m : Node} (h : firstTagged parts = some m) :
    m.kind.isSome = true := by
  obtain ⟨part, -, hpart⟩ := List.exists_of_findSome?_eq_some h
  cases part with
  | merged n =>
    simp only [Part.tagged?] at hpart
    split at hpart
    · next hkind => cases hpart; exact hkind
    · cases hpart
  | nothing | stored | loose => cases hpart

theorem firstTagged_append_singleton (parts : List Part) (part : Part) :
    firstTagged (parts ++ [part]) = (firstTagged parts).or part.tagged? := by
  simp [firstTagged, List.findSome?_append]

/-- A node that can be merged: its fields are in order, and it has a span only with a kind. -/
structure Node.Proper (n : Node) : Prop where
  sorted : Fields.Sorted n.fields
  span : n.kind = none → n.span = none

def Part.Proper : Part → Prop
  | .merged n => n.Proper
  | _ => True

/-- The draft is what the parts make of an empty one. -/
structure Draft.Assembled (parts : List Part) (d : Draft) : Prop where
  field : ∀ key, d.node.get? key = fieldOf (heldUnder key parts)
  repeated : ∀ key, key ∈ d.repeated ↔ 2 ≤ (heldUnder key parts).length
  kind : d.node.kind = (firstTagged parts).bind (·.kind)
  span : d.node.span = (firstTagged parts).bind (·.span)
  passed : d.passed = lastLoose parts

namespace Draft.Assembled

theorem empty : Assembled [] {} where
  field _ := rfl
  repeated _ := by simp [heldUnder]
  kind := rfl
  span := rfl
  passed := rfl

variable (h : Assembled parts d)
include h

theorem nothing : Assembled (parts ++ [.nothing]) d where
  field key := by rw [heldUnder_append_of_none rfl rfl, h.field]
  repeated key := by rw [heldUnder_append_of_none rfl rfl, h.repeated]
  kind := by simp [firstTagged_append_singleton, Part.tagged?, h.kind]
  span := by simp [firstTagged_append_singleton, Part.tagged?, h.span]
  passed := by simp [lastLoose, Part.loose?, h.passed]

theorem loose (data : Value) :
    Assembled (parts ++ [.loose data]) { d with passed := some data } where
  field key := by rw [heldUnder_append_of_none rfl rfl, h.field]
  repeated key := by rw [heldUnder_append_of_none rfl rfl, h.repeated]
  kind := by simp [firstTagged_append_singleton, Part.tagged?, h.kind]
  span := by simp [firstTagged_append_singleton, Part.tagged?, h.span]
  passed := by simp [lastLoose, Part.loose?]

/-- A merged node starts anew under its keys. Its kind and span are taken over while there is no
kind. -/
theorem merged (hn : n.Proper) : Assembled (parts ++ [.merged n]) (d.adopt n) where
  field key := by
    have hadopt : (d.adopt n).node.get? key = (n.get? key).or (d.node.get? key) :=
      Fields.lookup_foldl_insert hn.sorted _ _
    rw [hadopt, heldUnder_append_singleton, Part.field?]
    cases n.get? key with
    | some v => rfl
    | none => simp [Part.storedAs?, h.field]
  repeated key := by
    have hrepeated : key ∈ (d.adopt n).repeated ↔ key ∈ d.repeated ∧ n.get? key = none := by
      simp [adopt, Node.get?]
    rw [hrepeated, heldUnder_append_singleton, Part.field?]
    cases n.get? key with
    | some v => simp
    | none => simp [Part.storedAs?, h.repeated]
  kind := by
    have hkind := h.kind
    rw [firstTagged_append_singleton]
    cases hfirst : firstTagged parts with
    | some m =>
      rw [hfirst] at hkind
      obtain ⟨kind, hm⟩ := Option.isSome_iff_exists.1 (isSome_of_firstTagged hfirst)
      simp [adopt, hkind, hm]
    | none =>
      rw [hfirst] at hkind
      cases hn : n.kind <;> simp [adopt, hkind, Part.tagged?, hn]
  span := by
    have hkind := h.kind
    have hspan := h.span
    rw [firstTagged_append_singleton]
    cases hfirst : firstTagged parts with
    | some m =>
      rw [hfirst] at hkind hspan
      obtain ⟨kind, hm⟩ := Option.isSome_iff_exists.1 (isSome_of_firstTagged hfirst)
      simp [adopt, hkind, hspan, hm]
    | none =>
      rw [hfirst] at hkind hspan
      cases hn' : n.kind with
      | some kind => simp [adopt, hkind, hspan, Part.tagged?, hn']
      | none => simp [adopt, hkind, hspan, Part.tagged?, hn', hn.span hn']
  passed := by simp [lastLoose, Part.loose?, adopt, h.passed]

/-- A field takes one value more. -/
theorem put (hv : fieldOf (heldUnder key parts ++ [data]) = some v)
    (hmore : ∀ name, name ∈ more ↔ name ∈ d.repeated ∨ name = key ∧ heldUnder key parts ≠ []) :
    Assembled (parts ++ [.stored key data])
      { d with node := d.node.insert key v, repeated := more } where
  field name := by
    by_cases hname : name = key
    · subst hname
      rw [Node.get?_insert_self, heldUnder_stored_self, hv]
    · rw [Node.get?_insert_of_ne hname, heldUnder_stored_of_ne hname, h.field]
  repeated name := by
    rw [hmore, h.repeated]
    by_cases hname : name = key
    · subst hname
      rw [heldUnder_stored_self, List.length_append, List.length_singleton]
      cases heldUnder name parts <;> simp
    · simp [hname, heldUnder_stored_of_ne hname]
  kind := by simp [firstTagged_append_singleton, Part.tagged?, Node.insert, h.kind]
  span := by simp [firstTagged_append_singleton, Part.tagged?, Node.insert, h.span]
  passed := by simp [lastLoose, Part.loose?, h.passed]

/-- What is stored is put behind what is there. A list that was made of several values is known from
a list that is a single value. -/
theorem stored (hkey : isReserved key = false) (data : Value) (position : Position) :
    ∃ d', d.store key data position = .ok d' ∧ Assembled (parts ++ [.stored key data]) d' := by
  have hfield := h.field key
  have hmany := h.repeated key
  unfold store
  rw [if_neg (by simp [hkey])]
  match hheld : heldUnder key parts with
  | [] =>
    rw [hheld] at hfield
    rw [hfield]
    exact ⟨_, rfl, h.put (by simp [hheld, fieldOf]) (by simp [hheld])⟩
  | [v] =>
    rw [hheld] at hfield hmany
    have hcontains : d.repeated.contains key = false := by simpa using hmany
    have hput : Assembled (parts ++ [.stored key data])
        { d with node := d.node.insert key (.list [v, data]), repeated := key :: d.repeated } :=
      h.put (by simp [hheld, fieldOf]) (by simp [hheld, or_comm])
    rw [hfield, hcontains]
    cases v <;> exact ⟨_, rfl, hput⟩
  | v :: w :: rest =>
    rw [hheld] at hfield hmany
    have hrepeated : key ∈ d.repeated := hmany.2 (by simp)
    have hput : Assembled (parts ++ [.stored key data])
        { d with node := d.node.insert key (.list (v :: w :: rest ++ [data])) } := by
      refine h.put (by simp [hheld, fieldOf]) ?_
      rintro name
      refine ⟨Or.inl, fun hname => hname.elim id ?_⟩
      rintro ⟨rfl, -⟩
      exact hrepeated
    rw [hfield, List.contains_iff_mem.2 hrepeated]
    exact ⟨_, rfl, hput⟩

/-- One part more, if its key is free. -/
theorem extend (hpart : part.Proper) (hkey : part.isRefused = false) (position : Position) :
    ∃ d', d.extend position part = .ok d' ∧ Assembled (parts ++ [part]) d' := by
  cases part with
  | nothing => exact ⟨d, rfl, h.nothing⟩
  | merged n => exact ⟨d.adopt n, rfl, h.merged hpart⟩
  | stored key data => exact h.stored hkey data position
  | loose data => exact ⟨{ d with passed := some data }, rfl, h.loose data⟩

/-- There is something in the draft as soon as a part has brought a field or a kind. -/
theorem isBlank_eq : d.node.isBlank = !parts.any (·.collects) := by
  have hfields : d.node.fields = [] ↔ ∀ key, heldUnder key parts = [] := by
    rw [← Fields.lookup_eq_none_iff]
    exact forall_congr' fun key => by rw [← fieldOf_eq_none_iff, ← h.field, Node.get?]
  have hblank : d.node.isBlank = true ↔
      firstTagged parts = none ∧ ∀ key, heldUnder key parts = [] := by
    have hkind := h.kind
    have hspan := h.span
    simp only [Node.isBlank, Bool.and_eq_true, Option.isNone_iff_eq_none, List.isEmpty_iff, hfields]
    cases hfirst : firstTagged parts with
    | none =>
      rw [hfirst] at hkind hspan
      simp [hkind, hspan]
    | some m =>
      rw [hfirst] at hkind
      obtain ⟨kind, hm⟩ := Option.isSome_iff_exists.1 (isSome_of_firstTagged hfirst)
      simp [hkind, hm]
  rw [Bool.eq_iff_iff, hblank]
  simp only [firstTagged, List.findSome?_eq_none_iff, heldUnder_eq_nil_iff, Bool.not_eq_true',
    List.any_eq_false, Bool.not_eq_true, Part.collects_eq_false_iff]
  constructor
  · intro h part hpart
    exact ⟨h.1 part hpart, fun key => h.2 key part hpart⟩
  · intro h
    exact ⟨fun part hpart => (h part hpart).1, fun key part hpart => (h part hpart).2 key⟩

end Draft.Assembled

/-! ## All children of a rule -/

/-- Adds outcomes to an empty draft one by one. Each stands with the position where an unusable key
of it is reported. -/
def assemble (policy : Nesting) (children : List (Outcome × Position)) :
    Except ParseError Draft :=
  children.foldlM (fun d child => d.add child.1 policy child.2) {}

theorem assemble_append (policy : Nesting) (children more : List (Outcome × Position)) :
    assemble policy (children ++ more) = (assemble policy children).bind fun d =>
      more.foldlM (fun d child => d.add child.1 policy child.2) d :=
  List.foldlM_append ..

theorem Outcome.part_proper {o : Outcome} (h : ∀ n, o.data? = some (.node n) → n.Proper)
    (policy : Nesting) : (o.part policy).Proper := by
  unfold part
  split
  · trivial
  · next n hdata _ => exact h n hdata
  · next n key hdata _ =>
    split
    · exact h n hdata
    · trivial
  · trivial
  · trivial

/-- Children whose keys are free come together in a draft. -/
theorem assemble_ok (hproper : ∀ child ∈ children, (child.1.part policy).Proper)
    (hkeys : ∀ child ∈ children, (child.1.part policy).isRefused = false) :
    ∃ d, assemble policy children = .ok d ∧ d.Assembled (children.map (·.1.part policy)) := by
  induction children using List.reverseRecOn with
  | nil => exact ⟨{}, rfl, .empty⟩
  | append_singleton children child ih =>
    obtain ⟨d, hd, hparts⟩ := ih (fun c hc => hproper c (List.mem_append_left _ hc))
      fun c hc => hkeys c (List.mem_append_left _ hc)
    obtain ⟨d', hd', hmore⟩ :=
      hparts.extend (hproper child (by simp)) (hkeys child (by simp)) child.2
    refine ⟨d', ?_, by simpa using hmore⟩
    rw [assemble_append, hd, ← hd', ← Draft.add_eq_extend]
    exact bind_pure _

/-- The first key that is reserved is refused. -/
theorem assemble_error (hproper : ∀ child ∈ before, (child.1.part policy).Proper)
    (hkeys : ∀ child ∈ before, (child.1.part policy).isRefused = false)
    (hchild : child.1.part policy = .stored key data) (hkey : isReserved key = true)
    (after : List (Outcome × Position)) :
    assemble policy (before ++ child :: after) = .error (.reservedKey key child.2) := by
  obtain ⟨d, hd, -⟩ := assemble_ok hproper hkeys
  have hadd : d.add child.1 policy child.2 = .error (.reservedKey key child.2) := by
    rw [Draft.add_eq_extend, hchild, Draft.extend, Draft.store, if_pos hkey]
  rw [assemble_append, hd]
  exact congrArg (· >>= _) hadd

/-- What a rule puts together are the matches of its segments. -/
theorem exists_children_of_gather {run : Runner lexer} {s t : Stream lexer} {d d' : Draft}
    (h : gather run policy d segments s = .ok (.ok d') t) :
    ∃ children : List (Outcome × Position),
      segments.Forall₂ (fun segment child => ∃ u v, run segment u = .ok child.1 v ∧
        child.1.isMatch = true ∧ child.2 = v.lastEnd) children ∧
      children.foldlM (fun d child => d.add child.1 policy child.2) d = .ok d' := by
  induction segments generalizing d s with
  | nil =>
    cases h
    exact ⟨[], .nil, rfl⟩
  | cons segment rest ih =>
    obtain ⟨o, u, ho, h⟩ := ok_of_bind h
    split at h
    · next hmatch =>
      obtain ⟨v, _, hget, h⟩ := ok_of_bind h
      cases hget
      obtain ⟨d₁, v, hadd, h⟩ := ok_of_bind h
      cases hd₁ : d.add o policy u.lastEnd with
      | error e => rw [hd₁] at hadd; cases hadd
      | ok d₂ =>
        rw [hd₁] at hadd
        cases hadd
        obtain ⟨children, hchildren, hfold⟩ := ih h
        refine ⟨(o, u.lastEnd) :: children, .cons ⟨s, u, ho, hmatch, rfl⟩ hchildren, ?_⟩
        rw [List.foldlM_cons, hd₁]
        exact hfold
    · cases h

/-! ## What a rule gives -/

/-- The tag stands in place of a kind that was taken over, and the passed value has a field where
that is free. -/
theorem Draft.close_some (d : Draft) (tag : String) : ∃ n, d.close (some tag) = some (.node n) ∧
    n.kind = some tag ∧ n.span = none ∧
    n.get? valueName = (d.node.get? valueName).or d.passed ∧
    ∀ key, key ≠ valueName → n.get? key = d.node.get? key := by
  have hget (key : String) : ({ d.node with kind := some tag, span := none } : Node).get? key =
      d.node.get? key := rfl
  unfold close
  simp only
  cases hpassed : d.passed with
  | none =>
    refine ⟨_, rfl, rfl, rfl, ?_, fun key _ => rfl⟩
    rw [hget, Option.or_none]
  | some v =>
    cases hvalue : d.node.get? valueName with
    | none =>
      refine ⟨_, if_pos (by rw [hget, hvalue]; rfl), rfl, rfl, ?_, fun key hkey => ?_⟩
      · rw [Node.get?_insert_self]
        rfl
      · rw [Node.get?_insert_of_ne hkey, hget]
    | some w =>
      refine ⟨_, if_neg (by rw [hget, hvalue]; simp), rfl, rfl, ?_, fun key _ => rfl⟩
      rw [hget, hvalue]
      rfl

/-- Children come together in the order in which they stand. Under each key there is the value that
it has in the last merged node with that key, and behind it everything that was stored there since:
one value as it is, several as a list. Kind and span are those of the first merged node that has a
kind, and a tag takes their place. What has no key and is no node is passed on, the last of it. The
first key that is reserved ends it all. -/
theorem assemble_children (policy : Nesting) (children : List (Outcome × Position))
    (hproper : ∀ child ∈ children, ∀ n, child.1.data? = some (.node n) → n.Proper) :
    (∀ before child after key data, children = before ++ child :: after →
      (∀ earlier ∈ before, (earlier.1.part policy).isRefused = false) →
      child.1.part policy = .stored key data → isReserved key = true →
      assemble policy children = .error (.reservedKey key child.2)) ∧
    ((∀ child ∈ children, (child.1.part policy).isRefused = false) →
      ∃ d parts, assemble policy children = .ok d ∧ parts = children.map (·.1.part policy) ∧
        (∀ key, ∃ first since, Part.Since key parts first since ∧
          d.node.get? key = fieldOf (first.toList ++ since.filterMap (·.storedAs? key))) ∧
        d.node.kind = (firstTagged parts).bind (·.kind) ∧
        d.node.span = (firstTagged parts).bind (·.span) ∧
        d.close none =
          (if parts.any (·.collects) then some (.node d.node) else lastLoose parts) ∧
        ∀ tag, ∃ n, d.close (some tag) = some (.node n) ∧ n.kind = some tag ∧ n.span = none ∧
          n.get? valueName = (d.node.get? valueName).or (lastLoose parts) ∧
          ∀ key, key ≠ valueName → n.get? key = d.node.get? key) := by
  have hparts (child) (h : child ∈ children) : (child.1.part policy).Proper :=
    Outcome.part_proper (hproper child h) policy
  constructor
  · rintro before child after key data rfl hkeys hchild hkey
    exact assemble_error (fun c hc => hparts c (List.mem_append_left _ hc)) hkeys hchild hkey after
  · intro hkeys
    obtain ⟨d, hd, h⟩ := assemble_ok hparts hkeys
    refine ⟨d, _, hd, rfl, fun key => ?_, h.kind, h.span, ?_, fun tag => ?_⟩
    · obtain ⟨first, since, hsince⟩ := exists_since key (children.map (·.1.part policy))
      exact ⟨first, since, hsince, by rw [h.field, hsince.heldUnder_eq]⟩
    · rw [Draft.close, h.isBlank_eq, h.passed]
      cases (children.map (·.1.part policy)).any (·.collects) <;> rfl
    · rw [← h.passed]
      exact d.close_some tag

/-- A list under a key that a merged node then has, one more text there, and a passed text. -/
def mixedChildren : List (Outcome × Position) :=
  [({ Outcome.withData (.list []) with key := some "names" }, .start),
    (.withData (.node { kind := some "let", fields := [("names", .text "a")] }), .start),
    ({ Outcome.withData (.text "b") with key := some "names" }, .start),
    (.withData (.text "c"), .start)]

theorem assemble_children_mixedChildren : ∃ d, assemble .nest mixedChildren = .ok d ∧
    d.node.kind = some "let" ∧ d.close none = some (.node d.node) ∧
    d.node.get? "names" = some (.list [.text "a", .text "b"]) ∧
    ∃ n, d.close (some "block") = some (.node n) ∧ n.kind = some "block" ∧
      n.get? "names" = d.node.get? "names" := by
  have hproper : ∀ child ∈ mixedChildren, ∀ n, child.1.data? = some (.node n) → n.Proper := by
    intro child hchild n hn
    simp only [mixedChildren, List.mem_cons, List.not_mem_nil, or_false] at hchild
    rcases hchild with rfl | rfl | rfl | rfl <;> cases hn
    exact ⟨List.pairwise_singleton .., nofun⟩
  obtain ⟨d, parts, hd, rfl, -, hkind, -, hnone, hsome⟩ :=
    (assemble_children .nest mixedChildren hproper).2 (by
      intro child hchild
      simp only [mixedChildren, List.mem_cons, List.not_mem_nil, or_false] at hchild
      rcases hchild with rfl | rfl | rfl | rfl <;> decide)
  obtain ⟨n, hn, hblock, -, -, hget⟩ := hsome "block"
  refine ⟨d, hd, hkind, hnone, ?_, n, hn, hblock, hget "names" (by decide)⟩
  cases hd
  rfl

end Descent
