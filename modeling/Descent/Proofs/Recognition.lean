import Descent.Proofs.Tokens
import Descent.Proofs.Lockstep

/-!
# What a run makes of the tokens ahead

A parse sees of a text only what its tokens say, one after the other. `Ahead ts s` says that a
stream stands before tokens that say `ts`, and `Reads E ts p Q` is the triple of a program logic
over these lists: from such a stream the operation ends with an error that `E` admits, or it gives a
result and stands before the rest, as `Q` says. For segments the result is either no match, which
leaves the tokens where they are, or a finding: the data without spans, and its key.

* `reads_peek`, `reads_next`, `reads_atEnd`, `reads_steps`: what the operations of a stream say
  about the list.
* `finds_tokenBody`: a single token.
* `runs_attempt`: a segment, whatever its body finds.
-/
namespace Descent

open Descent.Stream

/-- What a token says: its kind and its value. -/
abbrev Lexeme := String × TokenValue

/-- The stream stands before the last tokens of its text, and these say `ts`. -/
def Ahead (x : Tokenized) (ts : List Lexeme) (s : Stream x.lexer) : Prop :=
  ∃ k, k ≤ x.count + 1 ∧ s.StandsAt (x.place k) ∧ (x.tokens.drop k).map Token.content = ts

variable {x : Tokenized} {ts rest : List Lexeme} {s t : Stream x.lexer}

theorem ahead_ofString (x : Tokenized) :
    Ahead x (x.tokens.map Token.content) (Stream.ofString x.text) :=
  ⟨0, Nat.zero_le _, standsAt_ofString x.text, rfl⟩

theorem Ahead.atDepth (h : Ahead x ts s) (d : Nat) : Ahead x ts (s.atDepth d) := by
  obtain ⟨k, hk, hs, hts⟩ := h
  exact ⟨k, hk, hs.atDepth d, hts⟩

theorem Ahead.record (h : Ahead x ts s) (e : Event) : Ahead x ts (s.record e) := by
  obtain ⟨k, hk, hs, hts⟩ := h
  exact ⟨k, hk, hs.record e, hts⟩

theorem Ahead.returnTo (h : Ahead x ts t) (hs : Ahead x rest s) :
    Ahead x ts (s.returnTo t.checkpoint) := by
  obtain ⟨k, hk, ht, hts⟩ := h
  obtain ⟨j, -, hs, -⟩ := hs
  exact ⟨k, hk, Tokenized.returnTo_at ht hs, hts⟩

theorem Ahead.length_le_unread (h : Ahead x ts s) : ts.length ≤ s.unread := by
  obtain ⟨k, -, hs, rfl⟩ := h
  have hle := Tokenized.count_le_unread hs
  rw [List.length_map, List.length_drop]
  unfold Tokenized.count at hle
  omega

/-- Behind the last token all places are alike. -/
theorem Tokenized.drop_seen (x : Tokenized) (k : Nat) :
    x.tokens.drop (x.seen k) = x.tokens.drop k := by
  unfold seen
  split
  · rfl
  · next h =>
    unfold count at h ⊢
    rw [List.drop_eq_nil_of_le (by omega), List.drop_eq_nil_of_le (by omega)]

/-- A look leads to where a stream has looked from. -/
def Looking (x : Tokenized) (ts : List Lexeme) (s : Stream x.lexer) : Prop :=
  ∃ k, x.Looked k ∧ s.StandsAt (x.place k) ∧ (x.tokens.drop k).map Token.content = ts

theorem Looking.ahead (h : Looking x ts s) : Ahead x ts s := by
  obtain ⟨k, hk, hs, hts⟩ := h
  exact ⟨k, hk.1, hs, hts⟩

/-- Tokens lie between a stream that has looked and one that has fewer tokens ahead. -/
theorem Looking.offset_lt (h : Looking x ts s) (ht : Ahead x rest t)
    (hlt : rest.length < ts.length) : s.offset < t.offset := by
  obtain ⟨k, hk, hs, rfl⟩ := h
  obtain ⟨j, hj, ht, rfl⟩ := ht
  rw [List.length_map, List.length_map, List.length_drop, List.length_drop] at hlt
  rw [Tokenized.offset_at hs, Tokenized.offset_at ht]
  exact Tokenized.offset_lt (by omega) hj hk

theorem Ahead.peek (h : Ahead x ts s) :
    ∃ found s', Stream.peek s = .ok found s' ∧ found.map Token.content = ts.head? ∧
      Looking x ts s' := by
  obtain ⟨k, hk, hs, rfl⟩ := h
  obtain ⟨s', hp, hs'⟩ := Tokenized.peek_at hs
  refine ⟨_, s', hp, ?_, _, Tokenized.looked_seen, hs', by rw [x.drop_seen]⟩
  rw [List.head?_map, List.head?_drop]

theorem Ahead.next (h : Ahead x ts s) :
    ∃ found s', Stream.next s = .ok found s' ∧ found.map Token.content = ts.head? ∧
      Ahead x ts.tail s' := by
  obtain ⟨k, hk, hs, rfl⟩ := h
  obtain ⟨s', hn, hs'⟩ := Tokenized.next_at hs
  refine ⟨_, s', hn, by rw [List.head?_map, List.head?_drop], ?_⟩
  rw [← List.map_tail, List.tail_drop]
  rcases Nat.lt_or_eq_of_le hk with hlt | rfl
  · exact ⟨k + 1, hlt, hs', rfl⟩
  · rw [Tokenized.place_of_count_lt (by omega)] at hs'
    refine ⟨x.count + 1, Nat.le_refl _, hs', ?_⟩
    unfold Tokenized.count
    rw [List.drop_eq_nil_of_le (by omega), List.drop_eq_nil_of_le (by omega)]

/-! ## Operations -/

variable {α β : Type} {E : Stop → Prop}

/-- From a stream before `ts` the operation ends with an error that `E` admits, or it gives a result
and a stream of which `Q` holds. -/
def Reads (E : Stop → Prop) (ts : List Lexeme) (p : Parse x.lexer α)
    (Q : α → List Lexeme → Prop) : Prop :=
  ∀ s, Ahead x ts s → (∃ e s', p s = .error e s' ∧ E e) ∨
    ∃ a s' rest, p s = .ok a s' ∧ Ahead x rest s' ∧ Q a rest

theorem reads_pure {Q : α → List Lexeme → Prop} {a : α} (h : Q a ts) :
    Reads E ts (pure a : Parse x.lexer α) Q :=
  fun s hs => Or.inr ⟨a, s, ts, rfl, hs, h⟩

theorem reads_throw {Q : α → List Lexeme → Prop} {e : Stop} (h : E e) :
    Reads E ts (throw e : Parse x.lexer α) Q :=
  fun s _ => Or.inl ⟨e, s, rfl, h⟩

theorem reads_refuse {Q : α → List Lexeme → Prop} {e : ParseError} (h : E (.error e)) :
    Reads E ts (Parse.refuse e : Parse x.lexer α) Q :=
  reads_throw h

theorem Reads.mono {p : Parse x.lexer α} {Q R : α → List Lexeme → Prop} (h : Reads E ts p Q)
    (hQR : ∀ a rest, Q a rest → R a rest) : Reads E ts p R := by
  intro s hs
  rcases h s hs with he | ⟨a, s', rest, hp, hs', hQ⟩
  · exact Or.inl he
  · exact Or.inr ⟨a, s', rest, hp, hs', hQR a rest hQ⟩

theorem Reads.bind {p : Parse x.lexer α} {f : α → Parse x.lexer β} {R : α → List Lexeme → Prop}
    {Q : β → List Lexeme → Prop} (hp : Reads E ts p R)
    (hf : ∀ a rest, R a rest → Reads E rest (f a) Q) : Reads E ts (p >>= f) Q := by
  intro s hs
  rw [bind_apply]
  rcases hp s hs with ⟨e, s', hp, he⟩ | ⟨a, s', rest, hp, hs', hR⟩
  · rw [hp]; exact Or.inl ⟨e, s', rfl, he⟩
  · rw [hp]; exact hf a rest hR s' hs'

theorem reads_get_bind {f : Stream x.lexer → Parse x.lexer α} {Q : α → List Lexeme → Prop}
    (hf : ∀ s, Ahead x ts s → Reads E ts (f s) Q) : Reads E ts (get >>= f) Q :=
  fun s hs => hf s hs s hs

theorem reads_returnTo (ht : Ahead x ts t) :
    Reads E rest (modify (·.returnTo t.checkpoint) : Parse x.lexer Unit) fun _ r => r = ts :=
  fun s hs => Or.inr ⟨(), s.returnTo t.checkpoint, ts, rfl, ht.returnTo hs, rfl⟩

theorem reads_peek : Reads E ts (Parse.peek : Parse x.lexer (Option Token)) fun found rest =>
    rest = ts ∧ found.map Token.content = ts.head? := by
  intro s hs
  obtain ⟨found, s', hp, hfound, hs'⟩ := hs.peek
  exact Or.inr ⟨found, s', ts, by rw [Parse.peek, Parse.ofPull, hp], hs'.ahead, rfl, hfound⟩

theorem reads_next : Reads E ts (Parse.next : Parse x.lexer (Option Token)) fun found rest =>
    rest = ts.tail ∧ found.map Token.content = ts.head? := by
  intro s hs
  obtain ⟨found, s', hn, hfound, hs'⟩ := hs.next
  exact Or.inr ⟨found, s', ts.tail, by rw [Parse.next, Parse.ofPull, hn], hs', rfl, hfound⟩

theorem reads_atEnd : Reads E ts (Parse.atEnd : Parse x.lexer Bool) fun done rest =>
    rest = ts ∧ done = ts.isEmpty := by
  intro s hs
  obtain ⟨found, s', hp, hfound, hs'⟩ := hs.peek
  refine Or.inr ⟨found.isNone, s', ts, by rw [Parse.atEnd, Parse.ofPull, atEnd_eq, hp],
    hs'.ahead, rfl, ?_⟩
  rw [← Option.isNone_map, hfound]
  cases ts <;> rfl

theorem Ahead.position (h : Ahead x ts s) :
    ∃ p s', (Parse.position : Parse x.lexer Position) s = .ok p s' ∧ Looking x ts s' := by
  obtain ⟨found, s', hp, -, hs'⟩ := h.peek
  rw [Parse.position, Parse.ofPull, position_eq, hp]
  cases found <;> exact ⟨_, s', rfl, hs'⟩

theorem reads_position : Reads E ts (Parse.position : Parse x.lexer Position) fun _ rest =>
    rest = ts := by
  intro s hs
  obtain ⟨p, s', hp, hs'⟩ := hs.position
  exact Or.inr ⟨p, s', ts, hp, hs'.ahead, rfl⟩

/-- A loop is given more steps than there are tokens. -/
theorem reads_steps : Reads E ts (steps : Parse x.lexer Nat) fun fuel rest =>
    rest = ts ∧ ts.length < fuel := by
  intro s hs
  have := hs.length_le_unread
  exact Or.inr ⟨s.unread + 2, s, ts, rfl, hs, rfl, by omega⟩

theorem reads_complaint (o : Outcome) :
    Reads E ts (Parse.complaint o : Parse x.lexer ParseError) fun _ _ => True := by
  unfold Parse.complaint
  split
  · exact reads_pure trivial
  · refine reads_position.bind fun p rest _ => reads_peek.bind fun found rest _ => ?_
    split <;> exact reads_pure trivial

/-! ## Findings -/

/-- What the match of a segment gives to the segment around it: data without spans, and a key. -/
structure Finding where
  data : Option Value := none
  key : Option String := none

/-- The finding under the key of a segment, if that has one. -/
def Finding.keyed (f : Finding) (key : Option String) : Finding := { f with key := key.or f.key }

/-- The outcome is a match with this finding, and leaves the mode to the rule. A node in its data
that has a span has a kind as well. -/
structure Outcome.Shows (o : Outcome) (f : Finding) : Prop where
  isMatch : o.isMatch = true
  data : o.data?.map Value.bare = f.data
  key : o.key = f.key
  nesting : o.nesting = .inherit
  tidy : ∀ n, o.data? = some (.node n) → n.kind = none → n.span = none

/-- The operation fails, if `F` lets it, or it gives a finding with the tokens behind it. -/
def Finds (E : Stop → Prop) (ts : List Lexeme) (p : Parse x.lexer Outcome)
    (M : Finding → List Lexeme → Prop) (F : Prop) : Prop :=
  Reads E ts p fun o rest => o.isMatch = false ∧ F ∨ ∃ f, o.Shows f ∧ M f rest

/-- Beyond this a failure leaves the tokens where they are, and a match that reads tokens counts as
progress. -/
def Runs (E : Stop → Prop) (ts : List Lexeme) (p : Parse x.lexer Outcome)
    (M : Finding → List Lexeme → Prop) (F : Prop) : Prop :=
  Reads E ts p fun o rest => (o.isMatch = false ∧ rest = ts ∧ F) ∨
    ∃ f, o.Shows f ∧ (rest.length < ts.length → o.progress ≠ 0) ∧ M f rest

variable {M N : Finding → List Lexeme → Prop} {F G : Prop}

theorem Runs.mono {p : Parse x.lexer Outcome} (h : Runs E ts p M F)
    (hM : ∀ f rest, M f rest → N f rest) (hF : F → G) : Runs E ts p N G :=
  Reads.mono h fun _ _ ho => ho.imp (fun ⟨hm, hr, hf⟩ => ⟨hm, hr, hF hf⟩)
    fun ⟨f, hs, hp, hf⟩ => ⟨f, hs, hp, hM _ _ hf⟩

theorem finds_of_finding {o : Outcome} {f : Finding} (h : o.Shows f) (hM : M f ts) :
    Finds E ts (pure o : Parse x.lexer Outcome) M F :=
  reads_pure (Or.inr ⟨f, h, hM⟩)

theorem finds_of_failure {o : Outcome} (h : o.isMatch = false) (hF : F) :
    Finds E ts (pure o : Parse x.lexer Outcome) M F :=
  reads_pure (Or.inl ⟨h, hF⟩)

theorem shows_success : Outcome.success.Shows {} := ⟨rfl, rfl, rfl, rfl, nofun⟩

theorem shows_list (items : List Value) :
    (Outcome.withData (.list items)).Shows { data := some (.list (items.map Value.bare)) } :=
  ⟨rfl, congrArg (fun vs => some (Value.list vs)) (Value.mapItems_eq _ items), rfl, rfl, nofun⟩

theorem shows_token (v : TokenValue) :
    (Outcome.withData v.toValue).Shows { data := some v.toValue } := by
  cases v <;> exact ⟨rfl, rfl, rfl, rfl, nofun⟩

theorem shows_ofData? {data bare : Option Value} (h : data.map Value.bare = bare)
    (ht : ∀ n, data = some (.node n) → n.kind = none → n.span = none) :
    (Outcome.ofData? data).Shows { data := bare } := by
  refine ⟨Outcome.isMatch_ofData? _, by rw [Outcome.data?_ofData?, h], ?_, ?_, ?_⟩
  · cases data <;> rfl
  · cases data <;> rfl
  · rw [Outcome.data?_ofData?]
    exact ht

theorem bare_located (span : Span) (v : Value) : (Outcome.located span v).bare = v.bare := by
  cases v with
  | node n =>
    obtain ⟨kind, _, fields⟩ := n
    simp only [Outcome.located]
    split <;> rfl
  | _ => rfl

theorem shows_settleMatch {o : Outcome} {f : Finding} (h : o.Shows f) {options : Options}
    (hn : options.nesting = .inherit) (span : Span) (began came : Nat) :
    (o.settleMatch o.data? options span began came).Shows (f.keyed options.key) := by
  refine ⟨rfl, ?_, ?_, ?_, fun n hdata hkind => ?_⟩
  · show (o.data?.map (Outcome.located span)).map Value.bare = f.data
    rw [Option.map_map, ← h.data]
    exact congrArg (o.data?.map ·) (funext (bare_located span))
  · exact congrArg (options.key.or ·) h.key
  · show (if options.nesting = .inherit then o.nesting else options.nesting) = .inherit
    rw [if_pos hn, h.nesting]
  · obtain ⟨v, hv, hloc⟩ := Option.map_eq_some_iff.1 hdata
    cases v with
    | node m =>
      simp only [Outcome.located] at hloc
      split at hloc <;> cases hloc
      · next hm => simp [show m.kind = none from hkind] at hm
      · exact h.tidy n hv hkind
    | _ => cases hloc

theorem runs_settled {options : Options} (hn : options.nesting = .inherit) (start : Position)
    {body : Parse x.lexer Outcome} (h : Finds E ts body M F)
    (hM : ∀ f rest, M f rest → N (f.keyed options.key) rest) {s : Stream x.lexer}
    (hs : Looking x ts s) :
    (∃ e s', settled options start body s = .error e s' ∧ E e) ∨
      ∃ o s' rest, settled options start body s = .ok o s' ∧ Ahead x rest s' ∧
        ((o.isMatch = false ∧ rest = ts ∧ F) ∨
          ∃ f, o.Shows f ∧ (rest.length < ts.length → o.progress ≠ 0) ∧ N f rest) := by
  rcases h s hs.ahead with ⟨e, s', hb, he⟩ | ⟨o, s', rest, hb, hs', ⟨hm, hF⟩ | ⟨f, ho, hf⟩⟩
  · exact Or.inl ⟨e, s'.returnTo s.checkpoint, by simp only [settled, hb], he⟩
  · obtain ⟨failure, e, -, hr⟩ :
        ∃ failure e, _ ∧ settled options start body s = .ok _ _ := settled_of_failure hb hm
    exact Or.inr ⟨_, _, ts, hr, (hs.ahead.returnTo hs').record e, Or.inl ⟨rfl, rfl, hF⟩⟩
  · refine Or.inr ⟨_, s', rest, settled_of_match hb ho.isMatch, hs', Or.inr
      ⟨_, shows_settleMatch ho hn _ _ _, fun hlt => ?_, hM f rest hf⟩⟩
    have := hs.offset_lt hs' hlt
    show s'.offset - s.offset ≠ 0
    omega

/-- A segment finds what its body finds, under the key of the segment. -/
theorem runs_attempt {options : Options} (hn : options.nesting = .inherit)
    {body : Parse x.lexer Outcome} (h : Finds E ts body M F)
    (hM : ∀ f rest, M f rest → N (f.keyed options.key) rest) :
    Runs E ts (attempt options body) N F := by
  intro s hs
  rw [attempt_eq, bind_apply]
  obtain ⟨start, s', hp, hs'⟩ := hs.position
  rw [hp]
  obtain ⟨k, hk, hplace, hts⟩ := hs'
  exact runs_settled hn start h hM (s := s'.record _) ⟨k, hk, hplace.record _, hts⟩

theorem reads_deeper {p : Parse x.lexer α} {Q : α → List Lexeme → Prop} (h : Reads E ts p Q) :
    Reads E ts (Parse.deeper p) Q := by
  intro s hs
  rw [deeper_apply]
  rcases h _ (hs.atDepth (s.depth + 1)) with ⟨e, s', hp, he⟩ | ⟨a, s', rest, hp, hs', hQ⟩
  · rw [hp]
    exact Or.inl ⟨e, _, rfl, he⟩
  · rw [hp]
    exact Or.inr ⟨a, _, rest, rfl, hs'.atDepth _, hQ⟩

/-! ## Single tokens -/

/-- A single token is found if the next one says what is accepted. -/
theorem finds_tokenBody {accepts : Token → Bool} {outcome : Token → Outcome} {expected : String}
    {p : Lexeme → Bool} {g : Lexeme → Finding} (hp : ∀ t, accepts t = p t.content)
    (ho : ∀ t, (outcome t).Shows (g t.content))
    (hM : ∀ l rest, ts = l :: rest → p l = true → M (g l) rest)
    (hF : (∀ l rest, ts = l :: rest → p l = false) → F) :
    Finds E ts (tokenBody accepts outcome expected : Parse x.lexer Outcome) M F := by
  refine reads_position.bind fun start rest hrest => ?_
  subst hrest
  refine reads_peek.bind fun seen rest ⟨hrest, hseen⟩ => ?_
  subst hrest
  cases seen with
  | none =>
    cases rest with
    | nil => exact finds_of_failure rfl (hF fun l rest h => by cases h)
    | cons l rest => cases hseen
  | some token =>
    cases rest with
    | nil => cases hseen
    | cons l rest =>
      obtain rfl : token.content = l := Option.some.inj hseen
      simp only
      split
      · next ha =>
        refine reads_next.bind fun _ rest' ⟨hrest', _⟩ => ?_
        subst hrest'
        exact finds_of_finding (ho token) (hM _ _ rfl (by rw [← hp, ha]))
      · next ha =>
        refine finds_of_failure rfl (hF fun l' rest' h => ?_)
        cases h
        rw [← hp]
        simpa using ha

end Descent
