import Descent.Run.Parse

/-!
# What a result says without its places

Values, drafts, outcomes and errors carry places of the text: spans and positions. `unplaced` sets
all of these to the start of the text and leaves the rest, so that two results with the same
`unplaced` differ only in where they came about. `Value.bare` takes the spans away altogether.

* `bare_unplaced`: what has no spans has no places.
* `unplaced_add`, `unplaced_close`: putting a rule together does not read places.
* `unplaced_located`: nor does giving a value its span.
-/
namespace Descent

/-- Where a function makes the same of two options, either both or neither has a value. -/
theorem cases_of_map_eq {α β : Type} {f : α → β} {a b : Option α} (h : a.map f = b.map f) :
    (a = none ∧ b = none) ∨ ∃ t u, a = some t ∧ b = some u ∧ f t = f u := by
  cases a with
  | none =>
    cases b with
    | none => exact Or.inl ⟨rfl, rfl⟩
    | some u => cases h
  | some t =>
    cases b with
    | none => cases h
    | some u => exact Or.inr ⟨t, u, rfl, rfl, Option.some.inj h⟩

/-! ## Fields -/

namespace Fields

variable {α β : Type}

/-- Applies a function to every value. -/
def map (f : α → β) (fields : Fields α) : Fields β :=
  List.map (fun p => (p.1, f p.2)) fields

theorem map_insert (f : α → β) (name : String) (value : α) (fields : Fields α) :
    map f (insert name value fields) = insert name (f value) (map f fields) := by
  induction fields with
  | nil => rfl
  | cons p rest ih =>
    obtain ⟨n, v⟩ := p
    simp only [map, List.map_cons, insert]
    split
    · rfl
    · split
      · rfl
      · rw [List.map_cons]; exact congrArg _ ih

theorem map_foldl_insert (f : α → β) (more fields : Fields α) :
    map f (more.foldl (fun fs (name, v) => insert name v fs) fields) =
      (map f more).foldl (fun fs (name, v) => insert name v fs) (map f fields) := by
  induction more generalizing fields with
  | nil => rfl
  | cons p more ih =>
    obtain ⟨n, v⟩ := p
    simp only [List.foldl_cons, map, List.map_cons]
    rw [← map, ih, map_insert]
    rfl

theorem lookup_map (f : α → β) (name : String) (fields : Fields α) :
    (map f fields).lookup name = (fields.lookup name).map f := by
  induction fields with
  | nil => rfl
  | cons p rest ih =>
    obtain ⟨n, v⟩ := p
    simp only [map, List.map_cons, List.lookup_cons]
    split
    · rfl
    · exact ih

end Fields

/-! ## Values -/

mutual

/-- Applies a function to the spans of all nodes in a value. -/
def Value.mapSpans (f : Option Span → Option Span) : Value → Value
  | .null => .null
  | .number x => .number x
  | .text s => .text s
  | .list items => .list (Value.mapItems f items)
  | .node n => .node (n.mapSpans f)

def Value.mapItems (f : Option Span → Option Span) : List Value → List Value
  | [] => []
  | v :: vs => v.mapSpans f :: Value.mapItems f vs

def Value.mapFields (f : Option Span → Option Span) :
    List (String × Value) → List (String × Value)
  | [] => []
  | (name, v) :: fields => (name, v.mapSpans f) :: Value.mapFields f fields

def Node.mapSpans (f : Option Span → Option Span) : Node → Node
  | ⟨kind, span, fields⟩ => ⟨kind, f span, Value.mapFields f fields⟩

end

theorem Value.mapItems_eq (f : Option Span → Option Span) (items : List Value) :
    Value.mapItems f items = items.map (Value.mapSpans f) := by
  induction items with
  | nil => rfl
  | cons v vs ih => rw [Value.mapItems, ih, List.map_cons]

theorem Value.mapFields_eq (f : Option Span → Option Span) (fields : List (String × Value)) :
    Value.mapFields f fields = Fields.map (Value.mapSpans f) fields := by
  induction fields with
  | nil => rfl
  | cons p fields ih => rw [Value.mapFields, ih]; rfl

mutual

theorem Value.mapSpans_mapSpans (f g : Option Span → Option Span) :
    ∀ v : Value, (v.mapSpans f).mapSpans g = v.mapSpans (g ∘ f)
  | .null | .number _ | .text _ => rfl
  | .list items => congrArg Value.list (Value.mapItems_mapItems f g items)
  | .node n => congrArg Value.node (Node.mapSpans_mapSpans f g n)

theorem Value.mapItems_mapItems (f g : Option Span → Option Span) :
    ∀ items : List Value, Value.mapItems g (Value.mapItems f items) = Value.mapItems (g ∘ f) items
  | [] => rfl
  | v :: vs => by
    simp only [Value.mapItems, Value.mapSpans_mapSpans f g v, Value.mapItems_mapItems f g vs]

theorem Value.mapFields_mapFields (f g : Option Span → Option Span) :
    ∀ fields : List (String × Value),
      Value.mapFields g (Value.mapFields f fields) = Value.mapFields (g ∘ f) fields
  | [] => rfl
  | (name, v) :: fields => by
    simp only [Value.mapFields, Value.mapSpans_mapSpans f g v,
      Value.mapFields_mapFields f g fields]

theorem Node.mapSpans_mapSpans (f g : Option Span → Option Span) :
    ∀ n : Node, (n.mapSpans f).mapSpans g = n.mapSpans (g ∘ f)
  | ⟨kind, span, fields⟩ => by
    simp only [Node.mapSpans, Value.mapFields_mapFields f g fields, Function.comp]

end

/-- A span that says nothing. -/
def Span.nowhere : Span := ⟨.start, .start⟩

/-- Forgets which span it is, but not whether there is one. -/
def forget (span : Option Span) : Option Span := span.map fun _ => .nowhere

/-- The value with its spans set to the start of the text. -/
def Value.unplaced (v : Value) : Value := v.mapSpans forget

/-- The value without spans. -/
def Value.bare (v : Value) : Value := v.mapSpans fun _ => none

def Node.unplaced (n : Node) : Node := n.mapSpans forget

theorem forget_forget : forget ∘ forget = forget := by
  funext span
  cases span <;> rfl

@[simp] theorem Value.unplaced_unplaced (v : Value) : v.unplaced.unplaced = v.unplaced := by
  rw [unplaced, unplaced, mapSpans_mapSpans, forget_forget]

@[simp] theorem Value.bare_unplaced (v : Value) : v.unplaced.bare = v.bare :=
  mapSpans_mapSpans forget (fun _ => none) v

@[simp] theorem Value.unplaced_list (items : List Value) :
    (Value.list items).unplaced = .list (items.map Value.unplaced) :=
  congrArg Value.list (mapItems_eq forget items)

@[simp] theorem Value.unplaced_node (n : Node) : (Value.node n).unplaced = .node n.unplaced := rfl

@[simp] theorem Node.unplaced_unplaced (n : Node) : n.unplaced.unplaced = n.unplaced := by
  rw [unplaced, unplaced, mapSpans_mapSpans, forget_forget]

@[simp] theorem TokenValue.unplaced_toValue (v : TokenValue) : v.toValue.unplaced = v.toValue := by
  cases v <;> rfl

namespace Node

theorem mapSpans_eq (f : Option Span → Option Span) (n : Node) :
    n.mapSpans f = ⟨n.kind, f n.span, Fields.map (Value.mapSpans f) n.fields⟩ := by
  obtain ⟨kind, span, fields⟩ := n
  exact congrArg (Node.mk kind (f span)) (Value.mapFields_eq f fields)

theorem mapSpans_insert (f : Option Span → Option Span) (n : Node) (name : String) (v : Value) :
    (n.insert name v).mapSpans f = (n.mapSpans f).insert name (v.mapSpans f) := by
  simp only [mapSpans_eq, insert, Fields.map_insert]

theorem get?_mapSpans (f : Option Span → Option Span) (n : Node) (name : String) :
    (n.mapSpans f).get? name = (n.get? name).map (Value.mapSpans f) := by
  rw [get?, mapSpans_eq, Fields.lookup_map]; rfl

theorem unplaced_eq (n : Node) :
    n.unplaced = ⟨n.kind, forget n.span, Fields.map Value.unplaced n.fields⟩ :=
  n.mapSpans_eq forget

@[simp] theorem kind_unplaced (n : Node) : n.unplaced.kind = n.kind := by rw [unplaced_eq]

@[simp] theorem span_unplaced (n : Node) : n.unplaced.span = forget n.span := by rw [unplaced_eq]

@[simp] theorem fields_unplaced (n : Node) :
    n.unplaced.fields = Fields.map Value.unplaced n.fields := by
  rw [unplaced_eq]

theorem unplaced_insert (n : Node) (name : String) (v : Value) :
    (n.insert name v).unplaced = n.unplaced.insert name v.unplaced :=
  n.mapSpans_insert forget name v

theorem get?_unplaced (n : Node) (name : String) :
    n.unplaced.get? name = (n.get? name).map Value.unplaced :=
  n.get?_mapSpans forget name

theorem isBlank_unplaced (n : Node) : n.unplaced.isBlank = n.isBlank := by
  simp [isBlank, forget, Fields.map]

end Node

/-! ## Outcomes and errors -/

def ReadError.unplaced : ReadError → ReadError
  | unterminated terminator _ => unterminated terminator .start
  | unexpected char _ => unexpected char .start
  | badNumber text _ => badNumber text .start

def ParseError.unplaced : ParseError → ParseError
  | reading e => reading e.unplaced
  | mismatch _ detail => mismatch .start detail
  | unknownRule rule => unknownRule rule
  | reservedKey key _ => reservedKey key .start
  | tooDeep _ limit => tooDeep .start limit

def Stop.unplaced : Stop → Stop
  | error e => error e.unplaced
  | endless => endless

namespace Outcome

/-- What was found or missed, without how far the run came. -/
def unplaced (o : Outcome) : Outcome where
  verdict :=
    match o.verdict with
    | .matched data => .matched (data.map Value.unplaced)
    | .failed f => .failed { message := f.message, position := .start }
  key := o.key
  nesting := o.nesting

@[simp] theorem key_unplaced (o : Outcome) : o.unplaced.key = o.key := rfl

@[simp] theorem nesting_unplaced (o : Outcome) : o.unplaced.nesting = o.nesting := rfl

@[simp] theorem isMatch_unplaced (o : Outcome) : o.unplaced.isMatch = o.isMatch := by
  unfold isMatch unplaced
  cases o.verdict <;> rfl

@[simp] theorem data?_unplaced (o : Outcome) : o.unplaced.data? = o.data?.map Value.unplaced := by
  unfold data? unplaced
  cases o.verdict <;> rfl

/-- Outcomes that say the same have data that say the same. -/
theorem alike_data? {o o' : Outcome} (h : o.unplaced = o'.unplaced) :
    o.data?.map Value.unplaced = o'.data?.map Value.unplaced := by
  rw [← data?_unplaced, ← data?_unplaced, h]

@[simp] theorem message?_unplaced (o : Outcome) : o.unplaced.message? = o.message? := by
  unfold message? failure? unplaced
  cases o.verdict <;> rfl

theorem unplaced_ofData? (data : Option Value) :
    (ofData? data).unplaced = ofData? (data.map Value.unplaced) := by
  cases data <;> rfl

theorem mapData_ofData? (convert : Value → Value) (data : Option Value) :
    (ofData? data).mapData convert = ofData? (data.map convert) := by
  cases data <;> rfl

theorem unplaced_located (span : Span) (v : Value) :
    (located span v).unplaced = located .nowhere v.unplaced := by
  cases v with
  | node n =>
    simp only [located, Value.unplaced_node, Node.kind_unplaced, Node.span_unplaced, forget,
      Option.isNone_map]
    split
    · simp only [Value.unplaced_node, Node.unplaced_eq]; rfl
    · rfl
  | _ => rfl

/-- The settled match says what the match says. -/
theorem unplaced_settleMatch (o : Outcome) (data : Option Value) (options : Options) (span : Span)
    (began came : Nat) :
    (o.settleMatch data options span began came).unplaced =
      { verdict := .matched ((data.map Value.unplaced).map (located .nowhere))
        key := options.key.or o.unplaced.key
        nesting :=
          if options.nesting = .inherit then o.unplaced.nesting else options.nesting } := by
  unfold settleMatch
  simp only [unplaced, Option.map_map, Function.comp_def, unplaced_located]

/-- The settled failure says what the failure says. -/
theorem unplaced_settleFailure {o : Outcome} {f : Failure} (h : o.verdict = .failed f)
    (began came : Nat) : (o.settleFailure f began came).unplaced = o.unplaced := by
  unfold settleFailure unplaced
  rw [h]

end Outcome

/-! ## Drafts -/

namespace Draft

def unplaced (d : Draft) : Draft where
  node := d.node.unplaced
  repeated := d.repeated
  passed := d.passed.map Value.unplaced

/-- What a step in the putting together of a rule gives, without its places. -/
def resultUnplaced : Except ParseError Draft → Except ParseError Draft
  | .ok d => .ok d.unplaced
  | .error e => .error e.unplaced

@[simp] theorem unplaced_unplaced (d : Draft) : d.unplaced.unplaced = d.unplaced := by
  simp [unplaced, Function.comp_def]

theorem unplaced_adopt (d : Draft) (n : Node) :
    (d.adopt n).unplaced = d.unplaced.adopt n.unplaced := by
  have hspan : forget (if d.node.kind.isNone then d.node.span.or n.span else d.node.span) =
      if d.node.kind.isNone then (forget d.node.span).or (forget n.span)
      else forget d.node.span := by
    split
    · cases d.node.span <;> rfl
    · rfl
  simp only [adopt, unplaced, Node.unplaced_eq, Fields.map_foldl_insert, Fields.lookup_map, hspan,
    Option.isNone_map]

theorem unplaced_insert (d : Draft) (name : String) (v : Value) (repeated : List String) :
    ({ d with node := d.node.insert name v, repeated := repeated } : Draft).unplaced =
      { d.unplaced with node := d.unplaced.node.insert name v.unplaced, repeated := repeated } := by
  simp only [unplaced, Node.unplaced_insert]

theorem unplaced_store (d : Draft) (key : String) (data : Value) (p q : Position) :
    resultUnplaced (d.unplaced.store key data.unplaced q) =
      resultUnplaced (d.store key data p) := by
  unfold store
  split
  · rfl
  · have hget : d.unplaced.node.get? key = (d.node.get? key).map Value.unplaced :=
      Node.get?_unplaced d.node key
    have hrepeated : d.unplaced.repeated = d.repeated := rfl
    rw [hget, hrepeated]
    -- Either side puts the same value under the key, and the same names among the repeated ones.
    have step (v : Value) (repeated : List String) :
        resultUnplaced (.ok { d.unplaced with
          node := d.unplaced.node.insert key v.unplaced, repeated := repeated }) =
        resultUnplaced (.ok { d with node := d.node.insert key v, repeated := repeated }) := by
      rw [resultUnplaced, resultUnplaced, ← unplaced_insert, unplaced_unplaced]
    cases d.node.get? key with
    | none => exact step data d.repeated
    | some first =>
      have hpair := step (.list [first, data]) (key :: d.repeated)
      simp only [Value.unplaced_list, List.map_cons, List.map_nil] at hpair
      cases first with
      | list items =>
        cases d.repeated.contains key with
        | true =>
          have happend := step (.list (items ++ [data])) d.repeated
          simp only [Value.unplaced_list, List.map_append, List.map_cons, List.map_nil] at happend
          simp only [Option.map_some, Value.unplaced_list]
          exact happend
        | false =>
          simp only [Option.map_some, Value.unplaced_list] at hpair ⊢
          exact hpair
      | null => exact hpair
      | number x => exact hpair
      | text s => exact hpair
      | node n => exact hpair

theorem unplaced_add (d : Draft) (child : Outcome) (policy : Nesting) (p q : Position) :
    resultUnplaced (d.unplaced.add child.unplaced policy q) =
      resultUnplaced (d.add child policy p) := by
  have adopted (n : Node) : resultUnplaced (.ok (d.unplaced.adopt n.unplaced)) =
      resultUnplaced (.ok (d.adopt n)) := by
    rw [← unplaced_adopt, resultUnplaced, resultUnplaced, unplaced_unplaced]
  have passed (v : Value) : resultUnplaced (.ok { d.unplaced with passed := some v.unplaced }) =
      resultUnplaced (.ok { d with passed := some v }) := by
    simp only [resultUnplaced, unplaced, Node.unplaced_unplaced, Option.map_some,
      Value.unplaced_unplaced]
  unfold add
  rw [Outcome.data?_unplaced, Outcome.key_unplaced, Outcome.nesting_unplaced]
  cases child.data? with
  | none => cases child.key <;> simp [resultUnplaced]
  | some v =>
    cases child.key with
    | none =>
      cases v with
      | node n => exact adopted n
      | list items =>
        have h := passed (.list items)
        simp only [Option.map_some, Value.unplaced_list] at h ⊢
        exact h
      | _ => exact passed _
    | some key =>
      cases v with
      | node n =>
        simp only [Option.map_some, Value.unplaced_node]
        split
        · exact adopted n
        · exact unplaced_store d key (.node n) p q
      | list items =>
        have h := unplaced_store d key (.list items) p q
        simp only [Option.map_some, Value.unplaced_list] at h ⊢
        exact h
      | _ => exact unplaced_store d key _ p q

theorem unplaced_close (d : Draft) (kind : Option String) :
    d.unplaced.close kind = (d.close kind).map Value.unplaced := by
  cases kind with
  | none =>
    have hblank : d.unplaced.node.isBlank = d.node.isBlank := Node.isBlank_unplaced d.node
    simp only [close, hblank]
    split <;> rfl
  | some kind =>
    have hnode : ({ d.unplaced.node with kind := some kind, span := none } : Node) =
        ({ d.node with kind := some kind, span := none } : Node).unplaced := by
      simp only [unplaced, Node.unplaced_eq]; rfl
    simp only [close, hnode]
    cases hp : d.passed with
    | none => simp only [unplaced, hp]; rfl
    | some v =>
      simp only [unplaced, hp, Option.map_some, Node.get?_unplaced, Option.isNone_map]
      split
      · simp only [Option.map_some, Value.unplaced_node, Node.unplaced_insert]
      · rfl

end Draft

end Descent
