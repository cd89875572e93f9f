import Descent.Grammar.Basic

/-!
# What stands inside of a segment

A segment is made of segments, these are made of segments again, and so on down to single tokens,
references and scripts. What stands in a rule that a segment refers to is not inside of the segment,
and neither are the segments that a script has at hand, although they are its parts.

* `Segment.inductionOn`: a property of segments is proved from that of their parts.
* `Throughout.part`, `throughout_iff`: what holds throughout a segment holds throughout its parts.
* `throughout_choice` and its like: the same for each shape.
* `Segment.mem_references_iff`: the recorded references are the references inside.
-/
namespace Descent

/-- The segments that a shape is made of, or that it has at hand. -/
def Shape.parts : Shape → List Segment
  | .exact .. | .ofKind _ | .leaf _ | .possibly .. | .nothing | .fail _ | .reference _ => []
  | .optional s | .untilEnd s | .binary s _ => [s]
  | .choice alternatives => alternatives
  | .delimited opening closing separator element => [opening, closing, separator, element]
  | .between opening content closing => [opening, content, closing]
  | .untilMatch terminator element => [terminator, element]
  | .inline rule => rule.segments
  | .script _ parts => parts

/-- The segments that a shape is made of. What a script has at hand can not be seen. -/
def Shape.composed : Shape → List Segment
  | .script .. => []
  | shape => shape.parts

namespace Segment

/-- It is the segment itself or stands anywhere in it. -/
inductive Inside : Segment → Segment → Prop
  | self (s : Segment) : Inside s s
  | part {t p s : Segment} (hp : p ∈ s.shape.composed) (h : Inside t p) : Inside t s

theorem mem_parts_of_composed {p s : Segment} (h : p ∈ s.shape.composed) : p ∈ s.shape.parts := by
  unfold Shape.composed at h
  split at h
  · cases h
  · exact h

theorem sizeOf_part {p s : Segment} (h : p ∈ s.shape.parts) : sizeOf p < sizeOf s := by
  obtain ⟨shape, options⟩ := s
  cases shape <;> simp only [Shape.parts, List.mem_cons, List.not_mem_nil, or_false] at h
  case choice alternatives =>
    have := List.sizeOf_lt_of_mem h
    simp only [Segment.mk.sizeOf_spec, Shape.choice.sizeOf_spec]
    omega
  case script request parts =>
    have := List.sizeOf_lt_of_mem h
    simp only [Segment.mk.sizeOf_spec, Shape.script.sizeOf_spec]
    omega
  case inline rule =>
    have := List.sizeOf_lt_of_mem h
    obtain ⟨name, kind, segments, nesting, convert⟩ := rule
    simp only [Segment.mk.sizeOf_spec, Shape.inline.sizeOf_spec, Rule.mk.sizeOf_spec] at this ⊢
    omega
  case optional s | untilEnd s | binary s tiers =>
    subst h
    simp
    omega
  case delimited opening closing separator element =>
    rcases h with rfl | rfl | rfl | rfl <;> simp <;> omega
  case between opening content closing => rcases h with rfl | rfl | rfl <;> simp <;> omega
  case untilMatch terminator element => rcases h with rfl | rfl <;> simp <;> omega

/-- What holds of a segment if it holds of the segments that it is made of holds of every
segment. -/
@[elab_as_elim]
theorem inductionOn {P : Segment → Prop} (s : Segment)
    (h : ∀ s, (∀ p ∈ s.shape.parts, P p) → P s) : P s :=
  h s fun p hp =>
    have := sizeOf_part hp
    inductionOn p h
termination_by sizeOf s

/-- It holds of the shape of the segment, of those of its parts, of those of their parts and so
on. -/
inductive Throughout (P : Shape → Prop) : Segment → Prop
  | of {s : Segment} (shape : P s.shape) (parts : ∀ p ∈ s.shape.parts, Throughout P p) :
    Throughout P s

section

variable {P Q : Shape → Prop} {s : Segment}

theorem Throughout.shape (h : s.Throughout P) : P s.shape := by
  cases h with
  | of shape _ => exact shape

theorem Throughout.part (h : s.Throughout P) {p : Segment} (hp : p ∈ s.shape.parts) :
    p.Throughout P := by
  cases h with
  | of _ parts => exact parts p hp

theorem Throughout.mono (h : s.Throughout P) (hPQ : ∀ shape, P shape → Q shape) :
    s.Throughout Q := by
  induction h with
  | of shape _ ih => exact .of (hPQ _ shape) ih

theorem Throughout.and (hP : s.Throughout P) (hQ : s.Throughout Q) :
    s.Throughout fun shape => P shape ∧ Q shape := by
  induction hP with
  | of shape _ ih => exact .of ⟨shape, hQ.shape⟩ fun p hp => ih p hp (hQ.part hp)

theorem Throughout.inside (h : s.Throughout P) {t : Segment} (ht : t.Inside s) : P t.shape := by
  induction ht with
  | self => exact h.shape
  | part hp _ ih => exact ih (h.part (mem_parts_of_composed hp))

theorem throughout_iff :
    s.Throughout P ↔ P s.shape ∧ ∀ p ∈ s.shape.parts, p.Throughout P :=
  ⟨fun h => ⟨h.shape, fun _ hp => h.part hp⟩, fun h => .of h.1 h.2⟩

theorem throughout_of_parts_eq_nil (hp : s.shape.parts = []) (h : P s.shape) : s.Throughout P :=
  throughout_iff.2 ⟨h, by simp [hp]⟩

/-! ### The shapes one by one -/

variable {options : Options}

theorem throughout_iff_of_parts_eq_nil (hp : s.shape.parts = []) :
    s.Throughout P ↔ P s.shape := ⟨Throughout.shape, throughout_of_parts_eq_nil hp⟩

@[simp] theorem throughout_exact {kind text : String} :
    Throughout P ⟨.exact kind text, options⟩ ↔ P (.exact kind text) :=
  throughout_iff_of_parts_eq_nil rfl

@[simp] theorem throughout_ofKind {kind : String} :
    Throughout P ⟨.ofKind kind, options⟩ ↔ P (.ofKind kind) :=
  throughout_iff_of_parts_eq_nil rfl

@[simp] theorem throughout_reference {name : String} :
    Throughout P ⟨.reference name, options⟩ ↔ P (.reference name) :=
  throughout_iff_of_parts_eq_nil rfl

@[simp] theorem throughout_optional :
    Throughout P ⟨.optional s, options⟩ ↔ P (.optional s) ∧ s.Throughout P := by
  rw [throughout_iff]
  simp [Shape.parts]

@[simp] theorem throughout_choice {alternatives : List Segment} :
    Throughout P ⟨.choice alternatives, options⟩ ↔
      P (.choice alternatives) ∧ ∀ s ∈ alternatives, s.Throughout P := throughout_iff

@[simp] theorem throughout_delimited {opening closing separator element : Segment} :
    Throughout P ⟨.delimited opening closing separator element, options⟩ ↔
      P (.delimited opening closing separator element) ∧ opening.Throughout P ∧
        closing.Throughout P ∧ separator.Throughout P ∧ element.Throughout P := by
  rw [throughout_iff]
  simp [Shape.parts]

@[simp] theorem throughout_between {opening content closing : Segment} :
    Throughout P ⟨.between opening content closing, options⟩ ↔
      P (.between opening content closing) ∧ opening.Throughout P ∧ content.Throughout P ∧
        closing.Throughout P := by
  rw [throughout_iff]
  simp [Shape.parts]

@[simp] theorem throughout_untilMatch {terminator element : Segment} :
    Throughout P ⟨.untilMatch terminator element, options⟩ ↔
      P (.untilMatch terminator element) ∧ terminator.Throughout P ∧ element.Throughout P := by
  rw [throughout_iff]
  simp [Shape.parts]

@[simp] theorem throughout_binary {operand : Segment} {tiers : List Tier} :
    Throughout P ⟨.binary operand tiers, options⟩ ↔
      P (.binary operand tiers) ∧ operand.Throughout P := by
  rw [throughout_iff]
  simp [Shape.parts]

@[simp] theorem throughout_inline {rule : Rule} :
    Throughout P ⟨.inline rule, options⟩ ↔
      P (.inline rule) ∧ ∀ s ∈ rule.segments, s.Throughout P := throughout_iff

end

end Segment

/-- It holds of every shape in the rules of the grammar. -/
def Grammar.Throughout (P : Shape → Prop) (g : Grammar) : Prop :=
  ∀ rule ∈ g.rules, rule.toSegment.Throughout P

theorem Grammar.Throughout.mono {P Q : Shape → Prop} {g : Grammar} (h : g.Throughout P)
    (hPQ : ∀ shape, P shape → Q shape) : g.Throughout Q := fun rule hr => (h rule hr).mono hPQ

theorem Grammar.Throughout.find? {P : Shape → Prop} {g : Grammar} (h : g.Throughout P)
    {name : String} {rule : Rule} (hf : g.find? name = some rule) : rule.toSegment.Throughout P :=
  h rule (Grammar.mem_of_find? hf).1

theorem Grammar.throughout_empty (P : Shape → Prop) : Grammar.Throughout P {} := by
  rintro rule ⟨⟩

/-! ## Scripts -/

/-- If the shape is a script, then one of these. -/
def Shape.ScriptIn (allowed : Script → Prop) : Shape → Prop
  | .script request _ => allowed request
  | _ => True

/-- There is no script in the segment: it is built from the other shapes only. -/
def Segment.Scriptless (s : Segment) : Prop := s.Throughout (Shape.ScriptIn fun _ => False)

def Grammar.Scriptless (g : Grammar) : Prop := g.Throughout (Shape.ScriptIn fun _ => False)

/-- The segments inside of a segment without scripts are all there is to it. -/
theorem Segment.Scriptless.throughout_of_inside {P : Shape → Prop} {s : Segment} (h : s.Scriptless)
    (hall : ∀ t : Segment, t.Inside s → P t.shape) : s.Throughout P := by
  induction h with
  | @of s hscript _ ih =>
    refine .of (hall s (.self s)) fun p hp => ih p hp fun t ht => hall t (.part ?_ ht)
    unfold Shape.composed
    split
    · next heq => exact (heq ▸ hscript : Shape.ScriptIn _ (.script ..)).elim
    · exact hp

theorem Rule.scriptless_toSegment {rule : Rule} (h : ∀ p ∈ rule.segments, p.Scriptless) :
    rule.toSegment.Scriptless := Segment.throughout_iff.2 ⟨trivial, h⟩

theorem Shape.scriptIn {allowed : Script → Prop} (shape : Shape)
    (h : ∀ request, allowed request) : shape.ScriptIn allowed := by
  cases shape with
  | script request parts => exact h request
  | _ => trivial

theorem Shape.ScriptIn.mono {allowed more : Script → Prop} {shape : Shape}
    (h : shape.ScriptIn allowed) (hmore : ∀ request, allowed request → more request) :
    shape.ScriptIn more := by
  cases shape with
  | script request parts => exact hmore request h
  | _ => trivial

/-- Where there are no scripts, they are all of any kind. -/
theorem Segment.Scriptless.throughout {s : Segment} (h : s.Scriptless) (allowed : Script → Prop) :
    s.Throughout (Shape.ScriptIn allowed) := h.mono fun _ hs => hs.mono fun _ => False.elim

theorem Grammar.Scriptless.throughout {g : Grammar} (h : g.Scriptless) (allowed : Script → Prop) :
    g.Throughout (Shape.ScriptIn allowed) :=
  fun rule hr => Segment.Scriptless.throughout (h rule hr) allowed

/-! ## References -/

theorem Segment.references_eq (s : Segment) : s.references = s.shape.references := by
  cases s; rfl

theorem Rule.references_eq (r : Rule) : r.references = r.segments.flatMap Segment.references := by
  obtain ⟨name, kind, segments, nesting, convert⟩ := r
  exact Segment.referencesOf_eq segments

/-- A shape records its own reference and what the segments that it is made of have recorded. -/
theorem Shape.mem_references_iff {name : String} {shape : Shape} :
    name ∈ shape.references ↔
      shape = .reference name ∨ ∃ p ∈ shape.composed, name ∈ p.references := by
  cases shape with
  | exact | ofKind | leaf | possibly | nothing | fail | script =>
    simp [references, composed, parts]
  | reference rule => simp [references, composed, parts, eq_comm]
  | optional s | untilEnd s | binary s tiers => simp [references, composed, parts]
  | choice alternatives => simp [references, composed, parts, Segment.referencesOf_eq]
  | delimited | between | untilMatch => simp [references, composed, parts]
  | inline rule => simp [references, composed, parts, Rule.references_eq]

/-- The recorded references of a segment are the references that stand inside. -/
theorem Segment.mem_references_iff {name : String} {s : Segment} :
    name ∈ s.references ↔ ∃ t : Segment, t.Inside s ∧ t.shape = .reference name := by
  constructor
  · intro h
    induction s using Segment.inductionOn with
    | h s ih =>
      rw [references_eq, Shape.mem_references_iff] at h
      rcases h with h | ⟨p, hp, h⟩
      · exact ⟨s, .self s, h⟩
      · obtain ⟨t, ht, hname⟩ := ih p (mem_parts_of_composed hp) h
        exact ⟨t, .part hp ht, hname⟩
  · rintro ⟨t, ht, hname⟩
    induction ht with
    | self =>
      rw [references_eq, Shape.mem_references_iff]
      exact Or.inl hname
    | part hp _ ih =>
      rw [references_eq, Shape.mem_references_iff]
      exact Or.inr ⟨_, hp, ih⟩

end Descent
