import Descent.Proofs.Documents

/-!
# Trees that can be told by their text

The compact JSON text of a tree leaves nothing out. Read from its start, the text of a document ends
where the document ends, whatever is written behind it; so the parts of a list and the members of an
object can be told apart, and no two documents have one text. The document of a tree has the kind
and the span under names that no field has, and writes a number as an object with a name that no
field has.

* `Json.unescape_escape`: a character of a string is read back from its escaped form.
* `Json.string_inj`, `Json.nat_inj`, `Json.Document.write_inj`: what is written can be told, and so
  can what is written behind it.
* `Value.document_inj`: trees of one document.
* `Value.json_eq_iff`: trees of one text.
-/
namespace Descent

namespace Json

/-! ## Strings -/

def hexValue (c : Char) : Nat := if c.isDigit then c.toNat - 48 else c.toNat - 87

/-- Reads a character of a JSON string, and gives what follows it. -/
def unescape : List Char → Option (Char × List Char)
  | '\\' :: 'u' :: '0' :: '0' :: high :: low :: rest =>
    some (Char.ofNat (16 * hexValue high + hexValue low), rest)
  | '\\' :: 'b' :: rest => some ('\x08', rest)
  | '\\' :: 'f' :: rest => some ('\x0c', rest)
  | '\\' :: 'n' :: rest => some ('\n', rest)
  | '\\' :: 'r' :: rest => some ('\r', rest)
  | '\\' :: 't' :: rest => some ('\t', rest)
  | '\\' :: c :: rest => some (c, rest)
  | c :: rest => some (c, rest)
  | [] => none

theorem hexValue_hexDigit : ∀ n < 0x20,
    16 * hexValue (hexDigit (n / 16)) + hexValue (hexDigit (n % 16)) = n := by decide

theorem unescape_escape (c : Char) (rest : List Char) :
    unescape (escape c ++ rest) = some (c, rest) := by
  unfold escape
  split
  · next h => subst h; rfl
  split
  · next h => subst h; rfl
  split
  · next h => subst h; rfl
  split
  · next h => subst h; rfl
  split
  · next h => subst h; rfl
  split
  · next h => subst h; rfl
  split
  · next h => subst h; rfl
  split
  · next h =>
    simp only [List.cons_append, List.nil_append, unescape, hexValue_hexDigit _ h, Char.ofNat_toNat]
  · next hback _ _ _ _ _ _ => simp [unescape, hback]

theorem escape_append_inj {c d : Char} {t u : List Char} (h : escape c ++ t = escape d ++ u) :
    c = d ∧ t = u := by
  have hread := unescape_escape c t
  rw [h, unescape_escape] at hread
  cases hread
  exact ⟨rfl, rfl⟩

/-- Only the quote that ends a string stands there as it is. -/
theorem escape_append_ne_quote (c : Char) (t u : List Char) : escape c ++ t ≠ '"' :: u := by
  intro h
  have hread := unescape_escape c t
  rw [h] at hread
  cases hread
  cases h

theorem escapes_inj {cs ds t u : List Char}
    (h : cs.foldr (fun c rest => escape c ++ rest) ('"' :: t) =
      ds.foldr (fun c rest => escape c ++ rest) ('"' :: u)) : cs = ds ∧ t = u := by
  induction cs generalizing ds with
  | nil =>
    cases ds with
    | nil => cases h; exact ⟨rfl, rfl⟩
    | cons d ds => exact absurd h.symm (escape_append_ne_quote d _ _)
  | cons c cs ih =>
    cases ds with
    | nil => exact absurd h (escape_append_ne_quote c _ _)
    | cons d ds =>
      obtain ⟨rfl, hrest⟩ := escape_append_inj h
      obtain ⟨rfl, rfl⟩ := ih hrest
      exact ⟨rfl, rfl⟩

/-- A string ends at the quote that was put behind it. -/
theorem string_inj {s r : String} {t u : List Char} (h : string s t = string r u) :
    s = r ∧ t = u := by
  obtain ⟨hchars, htail⟩ := escapes_inj (List.cons.inj h).2
  exact ⟨String.toList_inj.1 hchars, htail⟩

theorem name_inj {s r : String} {t u : List Char} (h : name s t = name r u) : s = r ∧ t = u := by
  obtain ⟨hname, htail⟩ := string_inj h
  exact ⟨hname, (List.cons.inj htail).2⟩

/-! ## Numbers -/

/-- No digit comes first, so that a number before it ends here. -/
def Stops (t : List Char) : Prop := ∀ c ∈ t.head?, c.isDigit = false

theorem stops_nil : Stops [] := nofun

theorem stops_cons {c : Char} (h : c.isDigit = false) (t : List Char) : Stops (c :: t) := by
  intro d hd
  cases hd
  exact h

theorem isDigit_of_mem_toDigits {n : Nat} {c : Char} (h : c ∈ Nat.toDigits 10 n) :
    c.isDigit = true := Nat.isDigit_of_mem_toDigits (by decide) (by decide) h

/-- The digits at the front are those of the number. -/
theorem digits_nat (n : Nat) {t : List Char} (ht : Stops t) :
    (Writer.nat n t).takeWhile Char.isDigit = Nat.toDigits 10 n ∧
      (Writer.nat n t).dropWhile Char.isDigit = t := by
  have hdigits : ∀ c ∈ Nat.toDigits 10 n, c.isDigit = true := fun _ => isDigit_of_mem_toDigits
  rw [Writer.nat, List.takeWhile_append_of_pos hdigits, List.dropWhile_append_of_pos hdigits]
  cases t with
  | nil => simp
  | cons c t =>
    have hc : ¬ c.isDigit = true := by simp [ht c rfl]
    rw [List.takeWhile_cons_of_neg hc, List.append_nil, List.dropWhile_cons_of_neg hc]
    exact ⟨rfl, rfl⟩

theorem nat_inj {n m : Nat} {t u : List Char} (ht : Stops t) (hu : Stops u)
    (h : Writer.nat n t = Writer.nat m u) : n = m ∧ t = u := by
  obtain ⟨hn, ht⟩ := digits_nat n ht
  obtain ⟨hm, hu⟩ := digits_nat m hu
  have hdigits : Nat.toDigits 10 n = Nat.toDigits 10 m := by rw [← hn, h, hm]
  refine ⟨?_, by rw [← ht, h, hu]⟩
  rw [← Nat.ofDigitChars_toDigits (b := 10) (n := n) (by decide) (by decide), hdigits,
    Nat.ofDigitChars_toDigits (by decide) (by decide)]

/-! ## Documents -/

namespace Document

/-- The sorts of documents, by the characters that they begin with. -/
def sort : Document → Nat
  | .null => 0
  | .nat _ => 1
  | .text _ => 2
  | .list _ => 3
  | .object _ => 4

/-- The sort of document that begins with this character. -/
def sortBy (c : Char) : Option Nat :=
  if c.isDigit then some 1
  else if c = 'n' then some 0
  else if c = '"' then some 2
  else if c = '[' then some 3
  else if c = '\x7b' then some 4
  else none

theorem exists_write (d : Document) (t : List Char) :
    ∃ c rest, d.write t = c :: rest ∧ sortBy c = some d.sort := by
  cases d with
  | null => exact ⟨_, _, rfl, rfl⟩
  | nat n =>
    obtain ⟨c, rest, hc⟩ := List.exists_cons_of_ne_nil (Nat.toDigits_ne_nil (n := n) (b := 10))
    have hdigit : c.isDigit = true :=
      isDigit_of_mem_toDigits (n := n) (hc ▸ List.mem_cons_self)
    refine ⟨c, rest ++ t, ?_, if_pos hdigit⟩
    rw [write, Writer.nat, hc, List.cons_append]
  | text s => exact ⟨_, _, rfl, rfl⟩
  | list items => exact ⟨_, _, rfl, rfl⟩
  | object members => exact ⟨_, _, rfl, rfl⟩

theorem sort_eq_of_write {d e : Document} {t u : List Char} (h : d.write t = e.write u) :
    d.sort = e.sort := by
  obtain ⟨c, rest, hd, hc⟩ := d.exists_write t
  obtain ⟨c', rest', he, hc'⟩ := e.exists_write u
  rw [hd, he] at h
  obtain rfl := (List.cons.inj h).1
  exact Option.some.inj (hc.symm.trans hc')

/-- No document begins with a mark that ends a list or an object. -/
theorem write_ne_cons {c : Char} (hc : sortBy c = none) (d : Document) (t u : List Char) :
    d.write t ≠ c :: u := by
  intro h
  obtain ⟨c', rest, hd, hc'⟩ := d.exists_write t
  rw [hd] at h
  cases h
  rw [hc] at hc'
  cases hc'

theorem stops_writeItems (items : List Document) (t : List Char) :
    Stops (writeItems true items (']' :: t)) := by
  cases items with
  | nil => exact stops_cons (by decide) _
  | cons d ds => exact stops_cons (by decide) _

theorem stops_writeMembers (members : List (String × Document)) (t : List Char) :
    Stops (writeMembers true members ('\x7d' :: t)) := by
  cases members with
  | nil => exact stops_cons (by decide) _
  | cons p rest => exact stops_cons (by decide) _

theorem comma_inj {more : Bool} {t u : List Char}
    (h : Writer.comma more t = Writer.comma more u) : t = u := by
  cases more with
  | true => exact (List.cons.inj h).2
  | false => exact h

mutual

/-- A document and what is written behind it can be told from the whole text. -/
theorem write_inj : ∀ {d e : Document} {t u : List Char}, Stops t → Stops u →
    d.write t = e.write u → d = e ∧ t = u
  | .null, e, t, u, _, _, h => by
    cases e with
    | null => exact ⟨rfl, List.append_cancel_left h⟩
    | _ => cases sort_eq_of_write h
  | .nat n, e, t, u, ht, hu, h => by
    cases e with
    | nat m =>
      obtain ⟨rfl, rfl⟩ := nat_inj ht hu h
      exact ⟨rfl, rfl⟩
    | _ => cases sort_eq_of_write h
  | .text s, e, t, u, _, _, h => by
    cases e with
    | text r =>
      obtain ⟨rfl, rfl⟩ := string_inj h
      exact ⟨rfl, rfl⟩
    | _ => cases sort_eq_of_write h
  | .list items, e, t, u, _, _, h => by
    cases e with
    | list others =>
      obtain ⟨rfl, rfl⟩ := writeItems_inj (List.cons.inj h).2
      exact ⟨rfl, rfl⟩
    | _ => cases sort_eq_of_write h
  | .object members, e, t, u, _, _, h => by
    cases e with
    | object others =>
      obtain ⟨rfl, rfl⟩ := writeMembers_inj (List.cons.inj h).2
      exact ⟨rfl, rfl⟩
    | _ => cases sort_eq_of_write h

theorem writeItems_inj : ∀ {more : Bool} {items others : List Document} {t u : List Char},
    writeItems more items (']' :: t) = writeItems more others (']' :: u) → items = others ∧ t = u
  | more, [], [], t, u, h => ⟨rfl, (List.cons.inj h).2⟩
  | true, [], e :: es, t, u, h => by cases h
  | false, [], e :: es, t, u, h => absurd h.symm (e.write_ne_cons (by decide) _ _)
  | true, d :: ds, [], t, u, h => by cases h
  | false, d :: ds, [], t, u, h => absurd h (d.write_ne_cons (by decide) _ _)
  | more, d :: ds, e :: es, t, u, h => by
    obtain ⟨rfl, hrest⟩ := write_inj (stops_writeItems ds t) (stops_writeItems es u) (comma_inj h)
    obtain ⟨rfl, rfl⟩ := writeItems_inj hrest
    exact ⟨rfl, rfl⟩

theorem writeMembers_inj : ∀ {more : Bool} {members others : List (String × Document)}
    {t u : List Char}, writeMembers more members ('\x7d' :: t) =
      writeMembers more others ('\x7d' :: u) → members = others ∧ t = u
  | more, [], [], t, u, h => ⟨rfl, (List.cons.inj h).2⟩
  | true, [], q :: rest, t, u, h => by cases h
  | false, [], q :: rest, t, u, h => by cases h
  | true, p :: rest, [], t, u, h => by cases h
  | false, p :: rest, [], t, u, h => by cases h
  | more, (n, d) :: ds, (m, e) :: es, t, u, h => by
    obtain ⟨rfl, hdata⟩ := name_inj (comma_inj h)
    obtain ⟨rfl, hrest⟩ := write_inj (stops_writeMembers ds t) (stops_writeMembers es u) hdata
    obtain ⟨rfl, rfl⟩ := writeMembers_inj hrest
    exact ⟨rfl, rfl⟩

end

end Document

end Json

/-! ## Members of nodes -/

open Json

theorem Json.Document.ofPosition_inj {p q : Position} (h : ofPosition p = ofPosition q) :
    p = q := by
  obtain ⟨offset, line, column⟩ := p
  obtain ⟨offset', line', column'⟩ := q
  simp only [ofPosition, Document.object.injEq, List.cons.injEq, Prod.mk.injEq, Document.nat.injEq,
    true_and, and_true] at h
  obtain ⟨rfl, rfl, rfl⟩ := h
  rfl

theorem Json.Document.ofSpan_inj {s t : Span} (h : ofSpan s = ofSpan t) : s = t := by
  obtain ⟨start, stop⟩ := s
  obtain ⟨start', stop'⟩ := t
  simp only [ofSpan, Document.object.injEq, List.cons.injEq, Prod.mk.injEq, true_and,
    and_true] at h
  rw [ofPosition_inj h.1, ofPosition_inj h.2]

/-- A member that may be left out can be told if no other one has its name. -/
theorem optional_member_inj {α : Type} {name : String} {f : α → Document}
    (hf : ∀ x y, f x = f y → x = y) {a b : Option α} {t u : List (String × Document)}
    (ht : ∀ p ∈ t, p.1 ≠ name) (hu : ∀ p ∈ u, p.1 ≠ name)
    (h : (a.map fun x => (name, f x)).toList ++ t = (b.map fun x => (name, f x)).toList ++ u) :
    a = b ∧ t = u := by
  cases a with
  | none =>
    cases b with
    | none => exact ⟨rfl, h⟩
    | some y =>
      obtain rfl : t = (name, f y) :: u := h
      exact absurd rfl (ht _ List.mem_cons_self)
  | some x =>
    cases b with
    | none =>
      obtain rfl : (name, f x) :: t = u := h
      exact absurd rfl (hu _ List.mem_cons_self)
    | some y =>
      obtain ⟨hmember, htail⟩ := List.cons.inj h
      exact ⟨congrArg some (hf x y (Prod.mk.inj hmember).2), htail⟩

/-- The fields of the node have none of the names that are used for something else. -/
def Node.Unreserved (n : Node) : Prop :=
  ∀ p ∈ n.fields, p.1 ≠ kindName ∧ p.1 ≠ spanName ∧ p.1 ≠ "num"

theorem Node.Unreserved.of_mem_fieldDocuments {n : Node} (hn : n.Unreserved)
    {p : String × Document} (hp : p ∈ Value.fieldDocuments n.fields) :
    p.1 ≠ kindName ∧ p.1 ≠ spanName ∧ p.1 ≠ "num" := by
  rw [Value.fieldDocuments_eq] at hp
  obtain ⟨q, hq, rfl⟩ := List.mem_map.1 hp
  exact hn q hq

theorem Node.Unreserved.ne_num {n : Node} (hn : n.Unreserved) {p : String × Document}
    (hp : p ∈ n.members) : p.1 ≠ "num" := by
  obtain ⟨kind, span, fields⟩ := n
  simp only [members, List.mem_append, Option.mem_toList, Option.map_eq_some_iff] at hp
  rcases hp with (⟨k, -, rfl⟩ | ⟨s, -, rfl⟩) | hp
  · exact ne_of_beq_false rfl
  · exact ne_of_beq_false rfl
  · exact (hn.of_mem_fieldDocuments hp).2.2

/-- The kind, the span and the fields can be told from the members. -/
theorem Node.Unreserved.members_inj {n m : Node} (hn : n.Unreserved) (hm : m.Unreserved)
    (h : n.members = m.members) :
    n.kind = m.kind ∧ n.span = m.span ∧
      Value.fieldDocuments n.fields = Value.fieldDocuments m.fields := by
  have hspan {l : Node} (hl : l.Unreserved) : ∀ p ∈ Value.fieldDocuments l.fields,
      p.1 ≠ spanName := fun p hp => (hl.of_mem_fieldDocuments hp).2.1
  have hkind {l : Node} (hl : l.Unreserved) : ∀ p ∈ (l.span.map fun s =>
      (spanName, Document.ofSpan s)).toList ++ Value.fieldDocuments l.fields, p.1 ≠ kindName := by
    intro p hp
    simp only [List.mem_append, Option.mem_toList, Option.map_eq_some_iff] at hp
    rcases hp with ⟨s, -, rfl⟩ | hp
    · exact ne_of_beq_false rfl
    · exact (hl.of_mem_fieldDocuments hp).1
  have hn' := hkind hn
  have hm' := hkind hm
  have hn'' := hspan hn
  have hm'' := hspan hm
  obtain ⟨kind, span, fields⟩ := n
  obtain ⟨kind', span', fields'⟩ := m
  simp only [members, List.append_assoc] at h
  obtain ⟨rfl, h⟩ := optional_member_inj (fun _ _ => Document.text.inj) hn' hm' h
  obtain ⟨rfl, h⟩ := optional_member_inj (fun _ _ => Document.ofSpan_inj) hn'' hm'' h
  exact ⟨rfl, rfl, h⟩

/-! ## Trees -/

namespace Value

/-- The number stands in the tree, at any depth. -/
inductive Holds (x : Float) : Value → Prop
  | self : Holds x (.number x)
  | item {v : Value} {items : List Value} (hv : v ∈ items) (h : Holds x v) : Holds x (.list items)
  | field {name : String} {v : Value} {n : Node} (hv : (name, v) ∈ n.fields) (h : Holds x v) :
    Holds x (.node n)

/-- The numbers of the tree are finite, and at no depth has it a field of one of the names that are
used for something else. -/
structure Legible (v : Value) : Prop where
  finite : ∀ x : Float, v.Holds x → x.isFinite = true
  names : v.All Node.Unreserved

/-- Numbers of the one tree and of the other are the same if their texts are. -/
def NumbersTold (v w : Value) : Prop :=
  ∀ x y : Float, v.Holds x → w.Holds y → Number.text x = Number.text y → x = y

theorem holds_number_iff {x y : Float} : (number y).Holds x ↔ x = y := by
  constructor
  · intro h
    cases h
    rfl
  · rintro rfl
    exact .self

theorem not_holds_text {x : Float} {s : String} : ¬ (text s).Holds x := nofun

theorem holds_node_iff {x : Float} {n : Node} :
    (node n).Holds x ↔ ∃ p ∈ n.fields, p.2.Holds x := by
  constructor
  · intro h
    cases h with
    | field hv h => exact ⟨_, hv, h⟩
  · rintro ⟨p, hp, h⟩
    exact .field hp h

theorem Legible.item {v : Value} {items : List Value} (h : (list items).Legible) (hv : v ∈ items) :
    v.Legible := ⟨fun x hx => h.finite x (.item hv hx), all_list_iff.1 h.names v hv⟩

theorem Legible.field {p : String × Value} {n : Node} (h : (node n).Legible) (hp : p ∈ n.fields) :
    p.2.Legible := ⟨fun x hx => h.finite x (.field hp hx), (all_node_iff.1 h.names).2 p hp⟩

theorem Legible.unreserved {n : Node} (h : (node n).Legible) : n.Unreserved :=
  (all_node_iff.1 h.names).1

/-- A number is written as an object with a name that no node has. -/
theorem Legible.document_number {x : Float} (h : (number x).Legible) :
    (number x).document = .object [("num", .text (Number.text x))] := by
  rw [document, Document.ofNumber, if_pos (h.finite x .self)]

theorem Legible.number_ne_node {x : Float} {n : Node} (hx : (number x).Legible)
    (hn : (node n).Legible) : (number x).document ≠ (node n).document := by
  intro h
  rw [hx.document_number, document] at h
  refine hn.unreserved.ne_num (p := ("num", .text (Number.text x))) ?_ rfl
  rw [← Document.object.inj h]
  exact List.mem_cons_self

mutual

/-- Trees that are written as one document are the same. -/
theorem document_inj : ∀ {v w : Value}, v.Legible → w.Legible → v.NumbersTold w →
    v.document = w.document → v = w
  | .null, w, _, hw, _, h => by
    cases w with
    | null => rfl
    | number y => rw [hw.document_number] at h; cases h
    | _ => cases h
  | .number x, w, hv, hw, hnumbers, h => by
    cases w with
    | number y =>
      rw [hv.document_number, hw.document_number] at h
      obtain ⟨hmember, -⟩ := List.cons.inj (Document.object.inj h)
      rw [hnumbers x y .self .self (Document.text.inj (Prod.mk.inj hmember).2)]
    | node m => exact absurd h (hv.number_ne_node hw)
    | _ => rw [hv.document_number] at h; cases h
  | .text s, w, _, hw, _, h => by
    cases w with
    | text r => rw [Document.text.inj h]
    | number y => rw [hw.document_number] at h; cases h
    | _ => cases h
  | .list items, w, hv, hw, hnumbers, h => by
    cases w with
    | list others =>
      rw [documents_inj (fun _ => hv.item) (fun _ => hw.item)
        (fun _ hi _ hj x y hx hy => hnumbers x y (.item hi hx) (.item hj hy)) (Document.list.inj h)]
    | number y => rw [hw.document_number] at h; cases h
    | _ => cases h
  | .node ⟨kind, span, fields⟩, w, hv, hw, hnumbers, h => by
    cases w with
    | node m =>
      obtain ⟨kind', span', fields'⟩ := m
      obtain ⟨rfl, rfl, h⟩ : kind = kind' ∧ span = span' ∧ fieldDocuments fields = _ :=
        hv.unreserved.members_inj hw.unreserved (Document.object.inj h)
      obtain rfl : fields = fields' := fieldDocuments_inj (fun _ => hv.field) (fun _ => hw.field)
        (fun _ hp _ hq x y hx hy => hnumbers x y (.field hp hx) (.field hq hy)) h
      rfl
    | number y => exact absurd h.symm (hw.number_ne_node hv)
    | _ => cases h

theorem documents_inj : ∀ {vs ws : List Value}, (∀ v ∈ vs, v.Legible) → (∀ w ∈ ws, w.Legible) →
    (∀ v ∈ vs, ∀ w ∈ ws, v.NumbersTold w) → documents vs = documents ws → vs = ws
  | [], [], _, _, _, _ => rfl
  | [], w :: ws, _, _, _, h => by cases h
  | v :: vs, [], _, _, _, h => by cases h
  | v :: vs, w :: ws, hvs, hws, hnumbers, h => by
    rw [List.forall_mem_cons] at hvs hws
    obtain ⟨hfirst, hrest⟩ := List.cons.inj h
    have hv := hnumbers v List.mem_cons_self w List.mem_cons_self
    obtain rfl : v = w := document_inj hvs.1 hws.1 hv hfirst
    rw [documents_inj hvs.2 hws.2 (fun a ha b hb =>
      hnumbers a (List.mem_cons_of_mem _ ha) b (List.mem_cons_of_mem _ hb)) hrest]

theorem fieldDocuments_inj : ∀ {vs ws : List (String × Value)}, (∀ p ∈ vs, p.2.Legible) →
    (∀ q ∈ ws, q.2.Legible) → (∀ p ∈ vs, ∀ q ∈ ws, p.2.NumbersTold q.2) →
    fieldDocuments vs = fieldDocuments ws → vs = ws
  | [], [], _, _, _, _ => rfl
  | [], q :: ws, _, _, _, h => by cases h
  | p :: vs, [], _, _, _, h => by cases h
  | (name, v) :: vs, (name', w) :: ws, hvs, hws, hnumbers, h => by
    rw [List.forall_mem_cons] at hvs hws
    obtain ⟨hmember, hrest⟩ := List.cons.inj h
    obtain ⟨rfl, hfirst⟩ := Prod.mk.inj hmember
    have hv : v.NumbersTold w := hnumbers _ List.mem_cons_self _ List.mem_cons_self
    obtain rfl : v = w := document_inj hvs.1 hws.1 hv hfirst
    rw [fieldDocuments_inj hvs.2 hws.2 (fun a ha b hb =>
      hnumbers a (List.mem_cons_of_mem _ ha) b (List.mem_cons_of_mem _ hb)) hrest]

end

/-- Two trees have one JSON text if and only if they are the same tree: with the same kinds, spans
and fields and the same nesting of lists and nodes. Their numbers are finite and have texts that
tell them apart, and none of their fields has the name of a kind, of a span or of a number's
text. -/
theorem json_eq_iff {v w : Value} (hv : v.Legible) (hw : w.Legible) (hnumbers : v.NumbersTold w) :
    v.json = w.json ↔ v = w := by
  refine ⟨fun h => ?_, congrArg json⟩
  rw [v.json_eq, w.json_eq] at h
  have hwrite : v.document.write [] = w.document.write [] := String.ofList_inj.1 h
  exact document_inj hv hw hnumbers (Document.write_inj stops_nil stops_nil hwrite).1

/-- A node with a text that looks like one more field, and a node that has this field. -/
theorem json_eq_iff_quoted :
    let v : Value := .node
      { kind := some "pair"
        fields := [("left", .text "a\",\"right\":\"b"), ("size", .number 1.5)] }
    let w : Value := .node
      { kind := some "pair"
        fields := [("left", .text "a"), ("right", .text "b"), ("size", .number 1.5)] }
    v.Legible ∧ w.Legible ∧ v.NumbersTold w ∧ (v.json = w.json ↔ v = w) ∧ v.json ≠ w.json := by
  intro v w
  have hv (x : Float) : v.Holds x → x = 1.5 := by
    simp [v, holds_node_iff, not_holds_text, holds_number_iff]
  have hw (x : Float) : w.Holds x → x = 1.5 := by
    simp [w, holds_node_iff, not_holds_text, holds_number_iff]
  have hfinite : (1.5 : Float).isFinite = true := by decide
  have htext (s : String) : (text s).All Node.Unreserved := nofun
  have hnumber (x : Float) : (number x).All Node.Unreserved := nofun
  have hlegible : v.Legible := by
    refine ⟨fun x hx => hv x hx ▸ hfinite, all_node_iff.2 ⟨?_, ?_⟩⟩
    · simp [Node.Unreserved, kindName, spanName]
    · simp [htext, hnumber]
  have hlegible' : w.Legible := by
    refine ⟨fun x hx => hw x hx ▸ hfinite, all_node_iff.2 ⟨?_, ?_⟩⟩
    · simp [Node.Unreserved, kindName, spanName]
    · simp [htext, hnumber]
  have htold : v.NumbersTold w := fun x y hx hy _ => (hv x hx).trans (hw y hy).symm
  have hiff := json_eq_iff hlegible hlegible' htold
  exact ⟨hlegible, hlegible', htold, hiff, fun h => by simpa [v, w] using hiff.1 h⟩

end Value

end Descent
