import Descent.Proofs.Parallel
import Descent.Proofs.Recognition

/-!
# What segments find

The rules of the logic for segments, with any number of levels below `n`: what a segment finds is
put together from what the segments inside find. Each rule is stated for what is behind it, so that
a proof about a grammar goes through its segments from left to right. A rule's draft is followed
without spans, by what each finding adds to it (`Adds`).

* `readsWithin_exact`, `readsWithin_ofKind`: single tokens.
* `readsWithin_reference`, `readsWithin_optional`, `readsWithin_choice`, `readsWithin_between`: the
  shapes that run each segment once.
* `gathers_cons`, `readsWithin_inline`: segments in a row, and the rule that is made of them.
* `parse_of_readsRule`: the parse from a rule.
-/
namespace Descent

open Descent.Stream

/-! ## Levels -/

/-- Among the errors is that the nesting goes too deep. -/
class Lenient (E : Stop → Prop) : Prop where
  tooDeep (p : Position) (limit : Nat) : E (.error (.tooDeep p limit))

/-- With fewer than `n` levels left the segment reads from `ts` on what `M` says, and fails only if
`F` lets it. -/
def ReadsWithin (x : Tokenized) (grammar : Grammar) (E : Stop → Prop) (n : Nat) (s : Segment)
    (ts : List Lexeme) (M : Finding → List Lexeme → Prop) (F : Prop) : Prop :=
  ∀ m < n, Runs E ts (s.runWithin grammar m : Parse x.lexer Outcome) M F

/-- So does the rule of this name. -/
def ReadsRule (x : Tokenized) (grammar : Grammar) (E : Stop → Prop) (n : Nat) (name : String)
    (ts : List Lexeme) (M : Finding → List Lexeme → Prop) (F : Prop) : Prop :=
  ∃ rule, grammar.find? name = some rule ∧ ReadsWithin x grammar E n rule.toSegment ts M F

variable {x : Tokenized} {grammar : Grammar} {E : Stop → Prop} {n : Nat} {ts : List Lexeme}
  {M N R : Finding → List Lexeme → Prop} {F G : Prop}

theorem ReadsWithin.mono {s : Segment} (h : ReadsWithin x grammar E n s ts M F)
    (hM : ∀ f rest, M f rest → N f rest) (hF : F → G) : ReadsWithin x grammar E n s ts N G :=
  fun m hm => (h m hm).mono hM hF

theorem ReadsWithin.of_le {k : Nat} {s : Segment} (h : ReadsWithin x grammar E n s ts M F)
    (hk : k ≤ n) : ReadsWithin x grammar E k s ts M F :=
  fun m hm => h m (Nat.lt_of_lt_of_le hm hk)

theorem ReadsRule.mono {name : String} (h : ReadsRule x grammar E n name ts M F)
    (hM : ∀ f rest, M f rest → N f rest) (hF : F → G) : ReadsRule x grammar E n name ts N G := by
  obtain ⟨rule, hrule, h⟩ := h
  exact ⟨rule, hrule, h.mono hM hF⟩

theorem ReadsRule.of_le {k : Nat} {name : String} (h : ReadsRule x grammar E n name ts M F)
    (hk : k ≤ n) : ReadsRule x grammar E k name ts M F := by
  obtain ⟨rule, hrule, h⟩ := h
  exact ⟨rule, hrule, h.of_le hk⟩

theorem Runs.finds {p : Parse x.lexer Outcome} (h : Runs E ts p M F) : Finds E ts p M F :=
  Reads.mono h fun _ _ ho => ho.imp (fun ⟨hm, _, hF⟩ => ⟨hm, hF⟩) fun ⟨f, hs, _, hM⟩ => ⟨f, hs, hM⟩

/-! ## Choices -/

/-- The first alternative that does not fail is the one that counts. -/
def Chooses (x : Tokenized) (grammar : Grammar) (E : Stop → Prop) (n : Nat) (ts : List Lexeme)
    (M : Finding → List Lexeme → Prop) (F : Prop) : List Segment → Prop
  | [] => F
  | s :: rest => ReadsWithin x grammar E n s ts M (Chooses x grammar E n ts M F rest)

theorem finds_choiceBody {alternatives : List Segment} {m : Nat} (hm : m < n)
    (h : Chooses x grammar E n ts M F alternatives) {best : Option Outcome}
    (hbest : ∀ o, best = some o → o.isMatch = false) :
    Finds E ts (choiceBody (Segment.runWithin grammar m) best alternatives :
      Parse x.lexer Outcome) M F := by
  induction alternatives generalizing best with
  | nil =>
    cases best with
    | some o => exact finds_of_failure (hbest o rfl) h
    | none => exact reads_position.bind fun _ _ _ => finds_of_failure rfl h
  | cons s rest ih =>
    refine (h m hm).bind fun o mid ho => ?_
    rcases ho with ⟨ho, rfl, hrest⟩ | ⟨f, hf, -, hM⟩
    · simp only [ho, Bool.false_eq_true, if_false]
      refine ih hrest fun o' ho' => ?_
      cases ho'
      exact isMatch_further hbest ho
    · rw [if_pos hf.isMatch]
      exact finds_of_finding hf hM

theorem Chooses.mono {alternatives : List Segment} (h : Chooses x grammar E n ts M F alternatives)
    (hM : ∀ f rest, M f rest → N f rest) (hF : F → G) :
    Chooses x grammar E n ts N G alternatives := by
  induction alternatives with
  | nil => exact hF h
  | cons s rest ih => exact ReadsWithin.mono h hM ih

/-! ## Bodies -/

/-- A run finds what its body finds with a level less. -/
theorem runs_succ {s : Segment} (hn : s.options.nesting = .inherit) {m : Nat}
    (h : Finds E ts
      (s.shape.body grammar (Segment.runWithin grammar m) : Parse x.lexer Outcome) M F)
    (hM : ∀ f rest, M f rest → N (f.keyed s.options.key) rest) :
    Runs E ts (s.runWithin grammar (m + 1) : Parse x.lexer Outcome) N F :=
  reads_deeper (runs_attempt hn h hM)

section

variable [Lenient E]

theorem reads_tooDeep {Q : Outcome → List Lexeme → Prop} (limit : Nat) :
    Reads E ts (tooDeep limit : Parse x.lexer Outcome) Q :=
  reads_position.bind fun _ _ _ => reads_refuse (Lenient.tooDeep _ _)

/-- A segment needs a level more than its body. -/
theorem readsWithin_of_body {s : Segment} (hn : s.options.nesting = .inherit)
    (h : ∀ m < n, Finds E ts
      (s.shape.body grammar (Segment.runWithin grammar m) : Parse x.lexer Outcome) M F)
    (hM : ∀ f rest, M f rest → N (f.keyed s.options.key) rest) :
    ReadsWithin x grammar E (n + 1) s ts N F := by
  intro m hm
  cases m with
  | zero => exact reads_deeper (reads_tooDeep grammar.maxDepth)
  | succ m => exact runs_succ hn (h m (by omega)) hM

/-! ## Single tokens -/

/-- The next token has this kind and this text, or the segment fails. -/
theorem readsWithin_exact {s : Segment} {kind text : String} (hs : s.shape = .exact kind text)
    (hn : s.options.nesting = .inherit)
    (hM : ∀ rest, ts = (kind, .text text) :: rest → N (({} : Finding).keyed s.options.key) rest)
    (hF : (∀ rest, ts ≠ (kind, .text text) :: rest) → F) :
    ReadsWithin x grammar E n s ts N F := by
  have hsaid (l : Lexeme) : (l.1 == kind && l.2.text? == some text) = true ↔
      l = (kind, .text text) := by
    obtain ⟨k, v⟩ := l
    cases v <;> simp [TokenValue.text?]
  have hbody : ∀ m < n, Finds E ts (s.shape.body grammar (Segment.runWithin grammar m) :
      Parse x.lexer Outcome) (fun f rest => f = {} ∧ ts = (kind, .text text) :: rest) F := by
    intro m _
    rw [hs]
    refine finds_tokenBody (p := fun l => l.1 == kind && l.2.text? == some text)
      (g := fun _ => {}) (fun t => rfl) (fun t => shows_success) (fun l rest hts hl => ?_)
      (fun h => hF fun rest hts => ?_)
    · rw [hsaid] at hl
      exact ⟨rfl, by rw [hts, hl]⟩
    · exact Bool.eq_false_iff.1 (h _ rest hts) ((hsaid _).2 rfl)
  refine (readsWithin_of_body hn hbody ?_).of_le (Nat.le_succ n)
  rintro f rest ⟨rfl, hts⟩
  exact hM rest hts

/-- The next token has this kind, and its value is the data, or the segment fails. -/
theorem readsWithin_ofKind {s : Segment} {kind : String} (hs : s.shape = .ofKind kind)
    (hn : s.options.nesting = .inherit)
    (hM : ∀ v rest, ts = (kind, v) :: rest →
      N (({ data := some v.toValue } : Finding).keyed s.options.key) rest)
    (hF : (∀ v rest, ts ≠ (kind, v) :: rest) → F) :
    ReadsWithin x grammar E n s ts N F := by
  have hbody : ∀ m < n, Finds E ts (s.shape.body grammar (Segment.runWithin grammar m) :
      Parse x.lexer Outcome)
      (fun f rest => ∃ v, f = { data := some v.toValue } ∧ ts = (kind, v) :: rest) F := by
    intro m _
    rw [hs]
    refine finds_tokenBody (p := fun l => l.1 == kind) (g := fun l => { data := some l.2.toValue })
      (fun t => rfl) (fun t => shows_token t.value) (fun l rest hts hl => ?_)
      (fun h => hF fun v rest hts => ?_)
    · exact ⟨l.2, rfl, by rw [hts, ← eq_of_beq hl]⟩
    · have := h _ rest hts
      simp at this
  refine (readsWithin_of_body hn hbody ?_).of_le (Nat.le_succ n)
  rintro f rest ⟨v, rfl, hts⟩
  exact hM v rest hts

/-! ## Segments that run others once -/

theorem readsWithin_reference {s : Segment} {name : String} (hs : s.shape = .reference name)
    (hn : s.options.nesting = .inherit) (h : ReadsRule x grammar E n name ts M F)
    (hM : ∀ f rest, M f rest → N (f.keyed s.options.key) rest) :
    ReadsWithin x grammar E n s ts N F := by
  obtain ⟨rule, hrule, h⟩ := h
  refine (readsWithin_of_body hn (fun m hm => ?_) hM).of_le (Nat.le_succ n)
  simp only [hs, Shape.body, hrule]
  exact (h m hm).finds

/-- An optional segment finds nothing where the segment inside fails. -/
theorem readsWithin_optional {s inner : Segment} (hs : s.shape = .optional inner)
    (hn : s.options.nesting = .inherit)
    (h : ReadsWithin x grammar E n inner ts (fun f rest => N (f.keyed s.options.key) rest) G)
    (hG : G → N (({} : Finding).keyed s.options.key) ts) :
    ReadsWithin x grammar E n s ts N F := by
  refine (readsWithin_of_body hn (fun m hm => ?_) fun _ _ hN => hN).of_le (Nat.le_succ n)
  rw [hs]
  refine (h m hm).bind fun o rest ho => ?_
  rcases ho with ⟨hm, rfl, hN⟩ | ⟨f, hf, -, hN⟩
  · rw [hm]
    exact finds_of_finding shows_success (hG hN)
  · rw [hf.isMatch]
    exact finds_of_finding hf hN

theorem readsWithin_choice {s : Segment} {alternatives : List Segment}
    (hs : s.shape = .choice alternatives) (hn : s.options.nesting = .inherit)
    (h : Chooses x grammar E n ts (fun f rest => N (f.keyed s.options.key) rest) F alternatives) :
    ReadsWithin x grammar E n s ts N F := by
  refine (readsWithin_of_body hn (fun m hm => ?_) fun _ _ hN => hN).of_le (Nat.le_succ n)
  rw [hs]
  exact finds_choiceBody hm h nofun

theorem chooses_cons {name : String} {alternatives : List Segment}
    (h : ReadsRule x grammar E n name ts M G) (hG : G → Chooses x grammar E n ts M F alternatives) :
    Chooses x grammar E n ts M F (.reference name :: alternatives) :=
  readsWithin_reference rfl rfl (h.mono (fun _ _ hM => hM) hG) fun _ _ hM => hM

/-- Three segments in a row find what the middle one finds, without its key. -/
theorem readsWithin_between {s opening content closing : Segment}
    (hs : s.shape = .between opening content closing) (hn : s.options.nesting = .inherit)
    (h : ReadsWithin x grammar E n opening ts (fun _ mid =>
      ReadsWithin x grammar E n content mid (fun f more =>
        ReadsWithin x grammar E n closing more (fun _ rest =>
          N (({ data := f.data } : Finding).keyed s.options.key) rest) F) F) F) :
    ReadsWithin x grammar E n s ts N F := by
  refine (readsWithin_of_body hn (fun m hm => ?_) fun _ _ hN => hN).of_le (Nat.le_succ n)
  rw [hs]
  refine (h m hm).bind fun opened mid ho => ?_
  rcases ho with ⟨ho, -, hF⟩ | ⟨_, ho, -, h⟩
  · simp only [ho]
    exact finds_of_failure ho hF
  simp only [ho.isMatch]
  refine (h m hm).bind fun inner more hi => ?_
  rcases hi with ⟨hi, -, hF⟩ | ⟨f, hi, -, h⟩
  · simp only [hi]
    exact finds_of_failure hi hF
  simp only [hi.isMatch]
  refine (h m hm).bind fun closed rest hc => ?_
  rcases hc with ⟨hc, -, hF⟩ | ⟨_, hc, -, hN⟩
  · simp only [hc]
    exact finds_of_failure hc hF
  · simp only [hc.isMatch]
    exact finds_of_finding (shows_ofData? hi.data hi.tidy) hN

end

/-! ## Drafts -/

def Node.bare (n : Node) : Node := n.mapSpans fun _ => none

theorem Node.bare_eq (n : Node) : n.bare = ⟨n.kind, none, Fields.map Value.bare n.fields⟩ :=
  n.mapSpans_eq _

/-- The draft has this node and this passed value, but for the spans. The node has a span only with
a kind, and no node is passed. -/
structure Draft.Shows (d b : Draft) : Prop where
  node : d.node.bare = b.node
  passed : d.passed.map Value.bare = b.passed
  tidy : d.node.kind = none → d.node.span = none
  plain : ∀ n, d.passed ≠ some (.node n)

/-- What a finding adds to a draft: nothing, a field of a new name, the fields of a node, or a list
that is passed. -/
inductive Adds (b : Draft) : Finding → Draft → Prop
  | nothing {key : Option String} : Adds b ⟨none, key⟩ b
  | field {key : String} {v : Value} (hkey : isReserved key = false)
    (hnew : b.node.get? key = none) :
    Adds b ⟨some v, some key⟩ { b with node := b.node.insert key v }
  | node {n : Node} : Adds b ⟨some (.node n), none⟩ (b.adopt n)
  | list {items : List Value} :
    Adds b ⟨some (.list items), none⟩ { b with passed := some (.list items) }

namespace Draft.Shows

variable {d b b' : Draft} {o : Outcome} {f : Finding}

theorem empty : ({} : Draft).Shows {} := ⟨rfl, rfl, fun _ => rfl, nofun⟩

theorem adopt (h : d.Shows b) {n : Node} (hn : n.kind = none → n.span = none) :
    (d.adopt n).Shows (b.adopt n.bare) := by
  refine ⟨?_, h.passed, fun hk => ?_, h.plain⟩
  · simp only [Draft.adopt, Node.bare_eq, ← h.node, Fields.map_foldl_insert]
    simp
  · obtain ⟨hd, hn'⟩ := Option.or_eq_none_iff.1 hk
    simp [Draft.adopt, hd, h.tidy hd, hn hn']

theorem store (h : d.Shows b) {key : String} (hkey : isReserved key = false)
    (hnew : b.node.get? key = none) (v : Value) (p : Position) :
    ∃ d', d.store key v p = .ok d' ∧
      d'.Shows { b with node := b.node.insert key v.bare } := by
  have hget : d.node.get? key = none := by
    rw [← h.node, Node.bare, Node.get?_mapSpans, Option.map_eq_none_iff] at hnew
    exact hnew
  refine ⟨{ d with node := d.node.insert key v }, ?_, ?_, h.passed, h.tidy, h.plain⟩
  · simp only [Draft.store, hkey, hget]
    rfl
  · rw [← h.node]
    exact Node.mapSpans_insert _ d.node key v

theorem add (h : d.Shows b) (ho : o.Shows f) (hadds : Adds b f b') (p : Position) :
    ∃ d', d.add o .inherit p = .ok d' ∧ d'.Shows b' := by
  have hdata := ho.data
  have hkey := ho.key
  have hnest := ho.nesting
  unfold Draft.add
  cases hadds with
  | nothing =>
    rw [Option.map_eq_none_iff.1 hdata]
    exact ⟨d, rfl, h⟩
  | field hfree hnew =>
    obtain ⟨w, hw, rfl⟩ := Option.map_eq_some_iff.1 hdata
    obtain ⟨d', hd', hs⟩ := h.store hfree hnew w p
    refine ⟨d', ?_, hs⟩
    simp only at hkey
    cases w <;> simp [hw, hkey, hnest, Nesting.under, hd']
  | node =>
    obtain ⟨w, hw, hb⟩ := Option.map_eq_some_iff.1 hdata
    cases w with
    | node n =>
      obtain rfl : n.bare = _ := by injection hb
      refine ⟨d.adopt n, ?_, h.adopt (ho.tidy n hw)⟩
      simp only at hkey
      simp [hw, hkey]
    | _ => cases hb
  | list =>
    obtain ⟨w, hw, hb⟩ := Option.map_eq_some_iff.1 hdata
    cases w with
    | list items =>
      refine ⟨{ d with passed := some (.list items) }, ?_, h.node, congrArg some hb, h.tidy, nofun⟩
      simp only at hkey
      simp [hw, hkey]
    | _ => cases hb

theorem isBlank_eq (h : d.Shows b) : d.node.isBlank = b.node.isBlank := by
  rw [← h.node, Node.bare_eq]
  cases hk : d.node.kind with
  | some kind => simp [Node.isBlank, hk]
  | none => simp [Node.isBlank, hk, h.tidy hk, Fields.map]

theorem bare_close (h : d.Shows b) (kind : Option String) :
    (d.close kind).map Value.bare = b.close kind := by
  cases kind with
  | none =>
    simp only [Draft.close, h.isBlank_eq]
    split
    · exact h.passed
    · exact congrArg (fun n => some (Value.node n)) h.node
  | some kind =>
    have hnode : ({ d.node with kind := some kind, span := none } : Node).bare =
        { b.node with kind := some kind, span := none } := by
      rw [← h.node, Node.bare_eq, Node.bare_eq]
    simp only [Draft.close, ← hnode, ← h.passed]
    cases d.passed with
    | none => rfl
    | some v =>
      simp only [Option.map_some, Node.bare, Node.get?_mapSpans, Option.isNone_map]
      split
      · exact congrArg (fun n => some (Value.node n)) (Node.mapSpans_insert _ _ _ _)
      · rfl

/-- A rule that is put together shows what is put together without spans. -/
theorem close (h : d.Shows b) (kind : Option String) :
    (Outcome.ofData? (d.close kind)).Shows { data := b.close kind } := by
  refine shows_ofData? (h.bare_close kind) fun n hn hk => ?_
  cases kind with
  | none =>
    simp only [Draft.close] at hn
    split at hn
    · exact absurd hn (h.plain n)
    · cases hn
      exact h.tidy hk
  | some kind =>
    simp only [Draft.close] at hn
    split at hn
    · cases hn; cases hk
    · split at hn <;> cases hn <;> cases hk

end Draft.Shows

/-! ## Rules -/

/-- The segments in a row, put together on the draft `b` and tagged with `kind`, read on what `M`
says. -/
def Gathers (x : Tokenized) (grammar : Grammar) (E : Stop → Prop) (n : Nat) (kind : Option String)
    (b : Draft) (segments : List Segment) (ts : List Lexeme) (M : Finding → List Lexeme → Prop)
    (F : Prop) : Prop :=
  ∀ m < n, ∀ d : Draft, d.Shows b →
    Reads E ts (gather (Segment.runWithin grammar m) .inherit d segments :
      Parse x.lexer (Except Outcome Draft)) fun r rest =>
        (∃ o, r = .error o ∧ o.isMatch = false ∧ F) ∨
          ∃ d' b', r = .ok d' ∧ d'.Shows b' ∧ M { data := b'.close kind } rest

section

variable {kind : Option String} {b : Draft} {segments : List Segment}

theorem gathers_nil (h : M { data := b.close kind } ts) :
    Gathers x grammar E n kind b [] ts M F :=
  fun _ _ d hd => reads_pure (Or.inr ⟨d, b, rfl, hd, h⟩)

theorem gathers_cons {s : Segment} (h : ReadsWithin x grammar E n s ts (fun f mid =>
    ∃ b', Adds b f b' ∧ Gathers x grammar E n kind b' segments mid M F) F) :
    Gathers x grammar E n kind b (s :: segments) ts M F := by
  intro m hm d hd
  refine (h m hm).bind fun o mid ho => ?_
  rcases ho with ⟨ho, -, hF⟩ | ⟨f, hf, -, b', hadds, hrest⟩
  · simp only [ho, Bool.false_eq_true, if_false]
    exact reads_pure (Or.inl ⟨o, rfl, ho, hF⟩)
  · rw [if_pos hf.isMatch]
    refine reads_get_bind fun s _ => ?_
    obtain ⟨d', hd', hshows⟩ := hd.add hf hadds s.lastEnd
    rw [hd']
    exact hrest m hm d' hshows

/-- A token that is only expected adds nothing. -/
theorem gathers_exact [Lenient E] {tag text : String}
    (h : ∀ mid, ts = (tag, .text text) :: mid → Gathers x grammar E n kind b segments mid M F)
    (hF : (∀ mid, ts ≠ (tag, .text text) :: mid) → F) :
    Gathers x grammar E n kind b (.exact tag text :: segments) ts M F :=
  gathers_cons (readsWithin_exact rfl rfl (fun mid hts => ⟨b, .nothing, h mid hts⟩) hF)

theorem gathers_exact_head [Lenient E] {tag text : String}
    (h : Gathers x grammar E n kind b segments ts M F) :
    Gathers x grammar E n kind b (.exact tag text :: segments) ((tag, .text text) :: ts) M F :=
  gathers_exact (fun _ hts => (List.cons.inj hts).2 ▸ h) fun hne => absurd rfl (hne ts)

/-- The value of a token becomes a field. -/
theorem gathers_ofKind [Lenient E] {tag key : String} (hkey : isReserved key = false)
    (hnew : b.node.get? key = none)
    (h : ∀ v mid, ts = (tag, v) :: mid → Gathers x grammar E n kind
      { b with node := b.node.insert key v.toValue } segments mid M F)
    (hF : (∀ v mid, ts ≠ (tag, v) :: mid) → F) :
    Gathers x grammar E n kind b ((Segment.ofKind tag).keyed key :: segments) ts M F :=
  gathers_cons (readsWithin_ofKind rfl rfl (fun v mid hts => ⟨_, .field hkey hnew, h v mid hts⟩) hF)

theorem gathers_ofKind_head [Lenient E] {tag key : String} {v : TokenValue}
    (hkey : isReserved key = false) (hnew : b.node.get? key = none)
    (h : Gathers x grammar E n kind { b with node := b.node.insert key v.toValue } segments ts
      M F) :
    Gathers x grammar E n kind b ((Segment.ofKind tag).keyed key :: segments) ((tag, v) :: ts)
      M F := by
  refine gathers_ofKind hkey hnew ?_ fun hne => absurd rfl (hne v ts)
  rintro _ _ ⟨⟩
  exact h

theorem readsWithin_inline [Lenient E] {s : Segment} {rule : Rule} (hs : s.shape = .inline rule)
    (hn : s.options.nesting = .inherit) (hnesting : rule.nesting = .inherit)
    (hconvert : rule.convert = id)
    (h : Gathers x grammar E n rule.kind {} rule.segments ts
      (fun f rest => N (f.keyed s.options.key) rest) F) :
    ReadsWithin x grammar E (n + 1) s ts N F := by
  refine readsWithin_of_body hn (fun m hm => ?_) fun _ _ hN => hN
  rw [hs]
  simp only [Shape.body, ruleBody, hnesting, hconvert]
  refine (h m hm {} .empty).bind fun r rest hr => ?_
  rcases hr with ⟨o, rfl, ho, hF⟩ | ⟨d', b', rfl, hshows, hN⟩
  · exact finds_of_failure ho hF
  · simp only [Outcome.mapData_ofData?, Option.map_id_fun, id_eq]
    exact finds_of_finding (hshows.close rule.kind) hN

/-- A rule in a row that need not be there. -/
theorem gathers_optional [Lenient E] {rule : Rule} (hnesting : rule.nesting = .inherit)
    (hconvert : rule.convert = id)
    (h : Gathers x grammar E n rule.kind {} rule.segments ts (fun f mid =>
      ∃ b', Adds b f b' ∧ Gathers x grammar E n kind b' segments mid M F) G)
    (hG : G → Gathers x grammar E n kind b segments ts M F) :
    Gathers x grammar E n kind b (.optional rule.toSegment :: segments) ts M F :=
  gathers_cons (readsWithin_optional rfl rfl
    ((readsWithin_inline rfl rfl hnesting hconvert h).of_le (Nat.le_succ n))
    fun hg => ⟨b, .nothing, hG hg⟩)

end

/-! ## Parses -/

theorem reads_record (e : Event) :
    Reads E ts (Parse.record e : Parse x.lexer Unit) fun _ rest => rest = ts :=
  fun s hs => Or.inr ⟨(), s.record e, ts, rfl, hs.record e, rfl⟩

theorem reads_concluded (root : String) {o : Outcome} (h : o.isMatch = false → F) :
    Reads (fun _ => F) ts (concluded root o : Parse x.lexer Value) fun v _ =>
      o.isMatch = true ∧ v = o.data?.getD .null := by
  unfold concluded
  split
  · next hm => exact reads_pure ⟨hm, rfl⟩
  · next hm =>
    have hF : F := h (by simpa using hm)
    exact (reads_complaint o).bind fun e _ _ => (reads_record _).bind fun _ _ _ => reads_refuse hF

/-- A parse ends with an error that the root admits, or gives the data of what the root finds. -/
theorem parse_of_runs {root : String} {rule : Rule} (hrule : grammar.find? root = some rule)
    (h : Runs E (x.tokens.map Token.content)
      (rule.toSegment.runWithin grammar grammar.maxDepth : Parse x.lexer Outcome) M F) :
    (∃ e s, grammar.parseText x.lexer root x.text = .error e s ∧ (E e ∨ F)) ∨
      ∃ v s f rest, grammar.parseText x.lexer root x.text = .ok v s ∧ M f rest ∧
        v.bare = f.data.getD .null := by
  let s : Stream x.lexer := (ofString x.text).record (.parsing root)
  have hs : Ahead x (x.tokens.map Token.content) s := (ahead_ofString x).record _
  have hrun : rule.run grammar s = rule.toSegment.runWithin grammar grammar.maxDepth s := by
    rw [Rule.run_eq]
    rfl
  rw [Grammar.parseText, parse_of_find? hrule, bind_apply, Grammar.runRoot, hrun]
  rcases h s hs with ⟨e, s', hr, he⟩ | ⟨o, s', rest, hr, hs', ho⟩
  · rw [hr]
    cases e <;> exact Or.inl ⟨_, _, rfl, Or.inl he⟩
  rw [hr]
  have hfailed : o.isMatch = false → o.isMatch = false ∧ F := fun hm =>
    ho.elim (fun h => ⟨hm, h.2.2⟩) fun ⟨f, hf, _⟩ => by rw [hf.isMatch] at hm; cases hm
  rcases reads_concluded root hfailed s' hs' with
    ⟨e, s'', hc, -, hF⟩ | ⟨_, s'', last, hc, -, hm, rfl⟩
  · exact Or.inl ⟨e, s'', hc, Or.inr hF⟩
  · rcases ho with ⟨hm', -⟩ | ⟨f, hf, -, hM⟩
    · rw [hm] at hm'
      cases hm'
    · refine Or.inr ⟨_, s'', f, rest, hc, hM, ?_⟩
      rw [← hf.data]
      cases o.data? <;> rfl

theorem parse_of_readsRule {root : String}
    (h : ReadsRule x grammar E n root (x.tokens.map Token.content) M F)
    (hn : grammar.maxDepth < n) :
    (∃ e s, grammar.parseText x.lexer root x.text = .error e s ∧ (E e ∨ F)) ∨
      ∃ v s f rest, grammar.parseText x.lexer root x.text = .ok v s ∧ M f rest ∧
        v.bare = f.data.getD .null := by
  obtain ⟨rule, hrule, h⟩ := h
  exact parse_of_runs hrule (h grammar.maxDepth hn)

end Descent
