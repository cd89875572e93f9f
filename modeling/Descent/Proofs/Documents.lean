import Descent.Proofs.Backtracking
import Descent.Proofs.Climbing
import Descent.Proofs.SurveyRuns
import Descent.Tree.Json

/-!
# Trees as JSON documents

The written form of a tree puts the kind and the span of a node among its fields. `Json.Document`
is the data model of JSON, in which a name may stand twice in one object, and `Document.write`
writes it down. Every tree is written as the document that it stands for, and if the names of its
fields are in order and not reserved then no object of that document has a name twice.

* `Json.value_eq_write`: a tree is written as its document.
* `Value.distinctNames_document`: the names in the document of a tree.
* `parse_names`: trees from grammars that are put together from combinators.
-/
namespace Descent

namespace Json

/-- A JSON document. The members of an object stand in the order in which they are written. -/
inductive Document where
  | null
  | nat (n : Nat)
  | text (s : String)
  | list (items : List Document)
  | object (members : List (String × Document))

namespace Document

mutual

def write : Document → Writer
  | .null => Writer.text "null"
  | .nat n => Writer.nat n
  | .text s => string s
  | .list items => fun tail => '[' :: writeItems false items (']' :: tail)
  | .object members => fun tail => '\x7b' :: writeMembers false members ('\x7d' :: tail)

/-- Documents with commas between them; `more` says that one stands before. -/
def writeItems (more : Bool) : List Document → Writer
  | [] => id
  | d :: ds => fun tail => Writer.comma more (d.write (writeItems true ds tail))

def writeMembers (more : Bool) : List (String × Document) → Writer
  | [] => id
  | (n, d) :: rest => fun tail =>
    Writer.comma more (name n (d.write (writeMembers true rest tail)))

end

/-- No object of the document, at any depth, has two members of one name. -/
inductive DistinctNames : Document → Prop
  | null : DistinctNames .null
  | nat (n : Nat) : DistinctNames (.nat n)
  | text (s : String) : DistinctNames (.text s)
  | list {items : List Document} (h : ∀ d ∈ items, DistinctNames d) : DistinctNames (.list items)
  | object {members : List (String × Document)} (hnames : (members.map Prod.fst).Nodup)
    (h : ∀ p ∈ members, DistinctNames p.2) : DistinctNames (.object members)

def ofPosition (p : Position) : Document :=
  .object [("offset", .nat p.offset), ("line", .nat p.line), ("column", .nat p.column)]

def ofSpan (s : Span) : Document :=
  .object [("start", ofPosition s.start), ("end", ofPosition s.stop)]

def ofNumber (x : Float) : Document :=
  if x.isFinite then .object [("num", .text (Number.text x))] else .null

theorem distinctNames_ofPosition (p : Position) : (ofPosition p).DistinctNames := by
  refine .object (by simp) ?_
  simp only [List.forall_mem_cons]
  exact ⟨.nat _, .nat _, .nat _, by simp⟩

theorem distinctNames_ofSpan (s : Span) : (ofSpan s).DistinctNames := by
  refine .object (by simp) ?_
  simp only [List.forall_mem_cons]
  exact ⟨distinctNames_ofPosition _, distinctNames_ofPosition _, by simp⟩

theorem distinctNames_ofNumber (x : Float) : (ofNumber x).DistinctNames := by
  unfold ofNumber
  split
  · refine .object (by simp) ?_
    simp only [List.forall_mem_cons]
    exact ⟨.text _, by simp⟩
  · exact .null

theorem write_ofNumber (x : Float) : (ofNumber x).write = Json.number x := by
  unfold ofNumber number
  split <;> rfl

end Document

end Json

open Json

/-! ## The document of a tree -/

mutual

/-- The document that a tree is written as. -/
def Value.document : Value → Document
  | .null => .null
  | .number x => .ofNumber x
  | .text s => .text s
  | .list items => .list (Value.documents items)
  | .node n => .object n.members

def Value.documents : List Value → List Document
  | [] => []
  | v :: vs => v.document :: Value.documents vs

def Value.fieldDocuments : List (String × Value) → List (String × Document)
  | [] => []
  | (name, v) :: rest => (name, v.document) :: Value.fieldDocuments rest

/-- The kind and the span of a node come before its fields. -/
def Node.members : Node → List (String × Document)
  | ⟨kind, span, fields⟩ =>
    (kind.map fun k => (kindName, Document.text k)).toList ++
      (span.map fun s => (spanName, Document.ofSpan s)).toList ++ Value.fieldDocuments fields

end

theorem Value.fieldDocuments_eq (fields : List (String × Value)) :
    Value.fieldDocuments fields = fields.map fun p => (p.1, p.2.document) := by
  induction fields with
  | nil => rfl
  | cons p rest ih => rw [Value.fieldDocuments, ih, List.map_cons]

namespace Json

open Document

mutual

/-- A tree is written as its document. -/
theorem value_eq_write : ∀ v : Value, value v = v.document.write
  | .null | .text _ => rfl
  | .number x => (write_ofNumber x).symm
  | .list items => by
    rw [value, Value.document, write, values_eq_write false items]
  | .node n => by
    rw [value, node_eq_write n]
    rfl

theorem values_eq_write (more : Bool) : ∀ items : List Value,
    values more items = writeItems more (Value.documents items)
  | [] => rfl
  | v :: vs => by
    rw [values, Value.documents, writeItems, value_eq_write v, values_eq_write true vs]

theorem fields_eq_write (more : Bool) : ∀ fs : List (String × Value),
    fields more fs = writeMembers more (Value.fieldDocuments fs)
  | [] => rfl
  | (n, v) :: rest => by
    rw [fields, Value.fieldDocuments, writeMembers, value_eq_write v, fields_eq_write true rest]

theorem node_eq_write : ∀ n : Node, node n = (Document.object n.members).write
  | ⟨none, none, fs⟩ | ⟨some _, none, fs⟩ | ⟨none, some _, fs⟩ | ⟨some _, some _, fs⟩ => by
    rw [node, fields_eq_write _ fs]
    rfl

end

end Json

/-- The compact JSON text of a tree is that of its document. -/
theorem Value.json_eq (v : Value) : v.json = v.document.write.toString :=
  congrArg Writer.toString (value_eq_write v)

/-! ## Names -/

/-- The names of the fields are in order, and none of them is reserved. -/
structure Node.WellNamed (n : Node) : Prop where
  sorted : Fields.Sorted n.fields
  unreserved : ∀ p ∈ n.fields, isReserved p.1 = false

namespace Node.WellNamed

variable {n : Node}

theorem get?_eq_none (hn : n.WellNamed) {name : String} (h : isReserved name = true) :
    n.get? name = none := by
  cases hfield : n.get? name with
  | none => rfl
  | some v =>
    have := hn.unreserved _ (Fields.mem_of_lookup hfield)
    rw [h] at this
    cases this

theorem nodup_members (hn : n.WellNamed) : (n.members.map Prod.fst).Nodup := by
  obtain ⟨kind, span, fields⟩ := n
  have hnames : (fields.map Prod.fst).Nodup := by
    rw [List.nodup_iff_pairwise_ne, List.pairwise_map]
    exact hn.sorted.imp fun h => Std.ne_of_lt h
  have hfresh (name : String) (h : isReserved name = true) : name ∉ fields.map Prod.fst := by
    intro hmem
    obtain ⟨p, hp, rfl⟩ := List.mem_map.1 hmem
    have := hn.unreserved p hp
    rw [h] at this
    cases this
  have hmap : (Value.fieldDocuments fields).map Prod.fst = fields.map Prod.fst := by
    rw [Value.fieldDocuments_eq, List.map_map]
    rfl
  have hkind := hfresh kindName (by decide)
  have hspan := hfresh spanName (by decide)
  have hne : kindName ≠ spanName := by decide
  cases kind <;> cases span <;>
    simp [Node.members, hmap, hnames, hkind, hspan, hne]

end Node.WellNamed

theorem heritable_wellNamed : Heritable (fun _ => True) Node.WellNamed where
  blank := ⟨.nil, by simp⟩
  insert hn hname := by
    refine ⟨Fields.insert_sorted hn.sorted, ?_⟩
    intro p hp
    rcases Fields.mem_insert hp with rfl | hp
    · exact hname
    · exact hn.unreserved p hp
  adopt hd hn := by
    refine ⟨Fields.foldl_insert_sorted hd.sorted, ?_⟩
    intro p hp
    rcases Fields.mem_foldl_insert hp with hp | hp
    · exact hd.unreserved p hp
    · exact hn.unreserved p hp
  tag hn _ := ⟨hn.sorted, hn.unreserved⟩

namespace Value

mutual

theorem distinctNames_document : ∀ {v : Value}, v.All Node.WellNamed → v.document.DistinctNames
  | .null, _ => .null
  | .number x, _ => Document.distinctNames_ofNumber x
  | .text _, _ => .text _
  | .list items, h => .list (distinctNames_documents (all_list_iff.1 h))
  | .node ⟨kind, span, fields⟩, h => by
    have hn := all_node_iff.1 h
    have hfields := distinctNames_fieldDocuments hn.2
    refine .object hn.1.nodup_members ?_
    intro p hp
    simp only [Node.members, List.mem_append, Option.mem_toList, Option.map_eq_some_iff] at hp
    rcases hp with (⟨k, -, rfl⟩ | ⟨s, -, rfl⟩) | hp
    · exact .text k
    · exact Document.distinctNames_ofSpan s
    · exact hfields p hp

theorem distinctNames_documents : ∀ {items : List Value}, (∀ v ∈ items, v.All Node.WellNamed) →
    ∀ d ∈ documents items, d.DistinctNames
  | [], _ => by simp [documents]
  | v :: vs, h => by
    rw [List.forall_mem_cons] at h
    rw [documents, List.forall_mem_cons]
    exact ⟨distinctNames_document h.1, distinctNames_documents h.2⟩

theorem distinctNames_fieldDocuments : ∀ {fields : List (String × Value)},
    (∀ p ∈ fields, p.2.All Node.WellNamed) → ∀ p ∈ fieldDocuments fields, p.2.DistinctNames
  | [], _ => by simp [fieldDocuments]
  | (_, v) :: rest, h => by
    rw [List.forall_mem_cons] at h
    rw [fieldDocuments, List.forall_mem_cons]
    exact ⟨distinctNames_document h.1, distinctNames_fieldDocuments h.2⟩

end

end Value

/-- No node that a grammar without hand-written parts gives, at any depth, has a field of a reserved
name, whatever keys and modes the segments have. So the written form of the tree has no object with
two members of one name. -/
theorem parse_names {lexer : Lexer} {g : Grammar} (hg : g.Throughout Shape.Combined)
    {root : String} {s s' : Stream lexer} {v : Value} (h : g.parse root s = .ok v s') :
    (∀ n : Node, n.Inside v → n.get? kindName = none ∧ n.get? spanName = none) ∧
      v.json = v.document.write.toString ∧ v.document.DistinctNames := by
  have hall : v.All Node.WellNamed := by
    have htame : g.Throughout ((Survey.blank : Survey lexer).Tame Node.WellNamed g) :=
      hg.mono fun _ h => Survey.tame_of_combined (fun _ => trivial) h
    exact Survey.all_of_parse heritable_wellNamed htame (Or.inr trivial) trivial h
  refine ⟨?_, v.json_eq, Value.distinctNames_document hall⟩
  intro n hn
  have hnames := hall n hn
  exact ⟨hnames.get?_eq_none (by decide), hnames.get?_eq_none (by decide)⟩

/-- The rule of a word and then a word again; what the first rule gives is merged, and the key is
used twice. -/
def wordTwice : Grammar where
  rules := [
    { name := "once", segments := [(Segment.leaf "word").keyed "word"] },
    { name := "twice", kind := some "twice",
      segments := [.reference "once", (Segment.leaf "word").keyed "word"] }]

theorem combined_wordTwice : wordTwice.Throughout Shape.Combined := by
  have hword : ((Segment.leaf "word").keyed "word").Throughout Shape.Combined :=
    Segment.throughout_of_parts_eq_nil rfl trivial
  have honce : (Segment.reference "once").Throughout Shape.Combined :=
    Segment.throughout_of_parts_eq_nil rfl trivial
  unfold Grammar.Throughout wordTwice
  simp only [List.forall_mem_cons]
  refine ⟨Rule.combined_toSegment rfl (by simpa using hword), ?_, by simp⟩
  exact Rule.combined_toSegment rfl (by simpa using ⟨honce, hword⟩)

/-- Both words are in one list of the node. -/
theorem parse_names_wordTwice :
    ∃ v s', wordTwice.parse "twice" (.ofString "a a" : Stream wordsAndBlanks) = .ok v s' ∧
      v.kind? = some "twice" ∧ (∃ items, v.get? "word" = some (.list items) ∧ items.length = 2) ∧
      (∀ n : Node, n.Inside v → n.get? kindName = none) ∧ v.document.DistinctNames := by
  have hended : endedIn (fun v _ => v.kind? == some "twice" &&
      ((v.get? "word").bind Value.items?).any (·.length == 2))
      (wordTwice.parse "twice" (.ofString "a a" : Stream wordsAndBlanks)) = true := by
    decide +kernel
  obtain ⟨v, s', h, hend⟩ := exists_of_endedIn hended
  obtain ⟨hkind, hitems⟩ := Bool.and_eq_true_iff.1 hend
  obtain ⟨hnames, -, hdistinct⟩ := parse_names combined_wordTwice h
  refine ⟨v, s', h, by simpa using hkind, ?_, fun n hn => (hnames n hn).1, hdistinct⟩
  obtain ⟨items, hget, hlength⟩ := (Option.any_eq_true _ _).1 hitems
  obtain ⟨w, hw, hlist⟩ := Option.bind_eq_some_iff.1 hget
  cases w with
  | list _ => cases hlist; exact ⟨items, hw, by simpa using hlength⟩
  | _ => cases hlist

end Descent
