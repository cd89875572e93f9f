import Descent.Proofs.Indexing
import Descent.Proofs.Survey

/-!
# The places of a text

All that a run knows of places comes from the tokens of its text. The position that a stream gives
is the start of a token or the end of the text, and the end of the last token is the end of a token
or the start of the text. A token that is handed out behind a start does not come before the token
that starts there. `Survey.ofText` puts this together for every state of a stream over the text.

* `Lexer.tokenOf_iff_mem`: the tokens of a text that can be read to its end.
* `Lexer.ShownAt.startOf`, `Stream.Reachable.stopOf`: where spans begin and end.
* `Stream.lastEnd_next`: what handing out a token does to the end of the last one.
-/
namespace Descent

open Descent.Stream

/-! ## Tokens and their ends -/

namespace Lexer

variable (lexer : Lexer) (text : String)

/-- The lexer finds this token behind `k` readings of the text. -/
def FoundAt (k : Nat) (t : Token) : Prop := lexer.found (lexer.place text k) = .ok (some t)

/-- The lexer comes by this token when it reads the text from start to end. -/
def TokenOf (t : Token) : Prop := ∃ k, lexer.FoundAt text k t

/-- A token starts here, or the text ends. -/
def StartOf (p : Position) : Prop :=
  (∃ t, lexer.TokenOf text t ∧ p = t.start) ∨ p = Position.start.after text.toList

/-- A token ends here, or the text starts. -/
def StopOf (p : Position) : Prop :=
  (∃ t, lexer.TokenOf text t ∧ p = t.span.stop) ∨ p = .start

/-- A look from behind `k` readings of the text shows this position. -/
def ShownAt (k : Nat) (p : Position) : Prop :=
  (∃ t, lexer.FoundAt text k t ∧ p = t.start) ∨
    (lexer.found (lexer.place text k) = .ok none ∧ p = (lexer.place text (k + 1)).position)

/-- The spans that nodes get: from the start of a token to the end of that token or of a later one,
and from a start to an end, if that lies behind it. -/
inductive SpanOf : Span → Prop
  | tokens {j k : Nat} {t u : Token} (hjk : j ≤ k) (ht : lexer.FoundAt text j t)
    (hu : lexer.FoundAt text k u) : SpanOf ⟨t.start, u.span.stop⟩
  | run {p q : Position} (hp : lexer.StartOf text p) (hq : lexer.StopOf text q) :
    SpanOf ⟨p, p.latest q⟩

/-- The positions that are reported: where a token starts or ends, where the text does, and where
no token can be read. -/
inductive PlaceOf : Position → Prop
  | start {p : Position} (h : lexer.StartOf text p) : PlaceOf p
  | stop {p : Position} (h : lexer.StopOf text p) : PlaceOf p
  | unreadable {k : Nat} {e : ReadError} (h : lexer.found (lexer.place text k) = .error e) :
    PlaceOf e.position

variable {lexer text}

/-- The tokens of a text that can be read to its end are those that the lexer gives. -/
theorem tokenOf_iff_mem {tokens : List Token} (h : lexer.tokenize text = .ok tokens) {t : Token} :
    lexer.TokenOf text t ↔ t ∈ tokens := by
  have hfound (k : Nat) : lexer.found (lexer.place text k) = .ok tokens[k]? :=
    (Tokenized.ofTokenize h).found k
  unfold TokenOf FoundAt
  simp only [hfound, Except.ok.injEq, List.mem_iff_getElem?]

/-- The lexer finds nothing behind the end of the text. -/
theorem found_eq_none {j k : Nat} (h : lexer.found (lexer.place text j) = .ok none)
    (hjk : j ≤ k) : lexer.found (lexer.place text k) = .ok none := by
  obtain ⟨i, rfl⟩ := Nat.exists_eq_add_of_le hjk
  cases i with
  | zero => exact h
  | succ i =>
    have hend : (lexer.place text (j + 1)).atEnd = true := lexer.atEnd_pass h
    rw [show j + (i + 1) = j + 1 + i by omega]
    exact found_place_of_atEnd hend i

theorem ShownAt.startOf {k : Nat} {p : Position} (h : lexer.ShownAt text k p) :
    lexer.StartOf text p := by
  rcases h with ⟨t, ht, rfl⟩ | ⟨hnone, rfl⟩
  · exact Or.inl ⟨t, ⟨k, ht⟩, rfl⟩
  · have hend : (lexer.place text (k + 1)).atEnd = true := lexer.atEnd_pass hnone
    rw [(lexer.sound_place text (k + 1)).position_of_atEnd hend, lexer.text_place]
    exact Or.inr rfl

end Lexer

/-! ## Streams -/

namespace Stream

variable {lexer : Lexer} {text : String} {s t : Stream lexer} {k : Nat}

/-- A token that was looked at is found where the stream stands. -/
theorem foundAt_of_peek {s' : Stream lexer} {token : Token} (h : s.StandsAt (lexer.place text k))
    (hp : peek s = .ok (some token) s') : lexer.FoundAt text k token := by
  rcases peek_cases h with ⟨u, s₁, hf, hp', -⟩ | ⟨-, hp'⟩ | ⟨e, -, hp'⟩ <;> rw [hp] at hp' <;>
    cases hp'
  exact hf

theorem position_shownAt {s' : Stream lexer} {p : Position} (h : s.StandsAt (lexer.place text k))
    (hp : Stream.position s = .ok p s') :
    lexer.ShownAt text k p ∧ ∃ m, k ≤ m ∧ s'.StandsAt (lexer.place text m) := by
  rw [position_eq] at hp
  rcases peek_cases h with ⟨token, s₁, hf, hpeek, hsame⟩ | ⟨hf, hpeek⟩ | ⟨e, -, hpeek⟩ <;>
    rw [hpeek] at hp <;> cases hp
  · exact ⟨Or.inl ⟨token, hf, rfl⟩, k, Nat.le_refl k, hsame.symm.standsAt (standsAt_holding hf)⟩
  · exact ⟨Or.inr ⟨hf, rfl⟩, k + 1, Nat.le_succ k, standsAt_passing s (lexer.place text k)⟩

/-- Handing out a token makes its end the last one, and nothing else moves that. -/
theorem lastEnd_next (h : s.StandsAt (lexer.place text k)) :
    (∃ u, lexer.FoundAt text k u ∧ (stateOf (next s)).lastEnd = u.span.stop) ∨
      (stateOf (next s)).lastEnd = s.lastEnd := by
  rw [next_eq]
  cases hp : peek s with
  | error e s' =>
    have hframe := (peek_frame s).1
    rw [hp] at hframe
    exact Or.inr hframe
  | ok found s' =>
    have hend := lastEnd_handOut hp
    cases found with
    | none => exact Or.inr hend
    | some u => exact Or.inl ⟨u, foundAt_of_peek h hp, hend⟩

theorem Reachable.stopOf (h : s.Reachable text) : lexer.StopOf text s.lastEnd := by
  induction h with
  | start => exact Or.inr rfl
  | @look s _ ih => rwa [(peek_frame s).1]
  | take h ih =>
    obtain ⟨k, hk⟩ := h.standsAt_place
    rcases lastEnd_next hk with ⟨u, hu, hend⟩ | hend
    · exact Or.inl ⟨u, ⟨k, hu⟩, hend⟩
    · rwa [hend]
  | back _ _ _ iht => exact iht
  | nest _ _ ih => exact ih
  | note _ _ ih => exact ih

/-! ## From a start on -/

/-- The stream over the text stands behind at least `j` readings. -/
def StandsFrom (text : String) (j : Nat) (s : Stream lexer) : Prop :=
  ∃ k, j ≤ k ∧ s.StandsAt (lexer.place text k)

variable {j : Nat}

theorem StandsFrom.look (h : s.StandsFrom text j) : (stateOf (peek s)).StandsFrom text j := by
  obtain ⟨k, hjk, hk⟩ := h
  rcases standsAt_peek hk with h | h
  · exact ⟨k, hjk, h⟩
  · exact ⟨k + 1, by omega, h⟩

theorem StandsFrom.take (h : s.StandsFrom text j) : (stateOf (next s)).StandsFrom text j := by
  obtain ⟨k, hjk, hk⟩ := h
  exact ⟨k + 1, by omega, standsAt_next hk⟩

theorem StandsFrom.back (ht : t.StandsFrom text j) (hs : s.Reachable text) :
    (s.returnTo t.checkpoint).StandsFrom text j := by
  obtain ⟨k, hjk, hk⟩ := ht
  obtain ⟨i, hi⟩ := hs.standsAt_place
  refine ⟨k, hjk, standsAt_returnTo hk (lexer.sound_place text k) ?_⟩
  rw [hi.text_eq, lexer.text_place, lexer.text_place]

/-- The stream has come from a place where it gave this position. -/
structure Since (text : String) (p : Position) (s : Stream lexer) : Prop where
  reachable : s.Reachable text
  shown : ∃ j, lexer.ShownAt text j p ∧ s.StandsFrom text j

/-- The stream has come from the token that starts here, and has handed out that one or a later one
last. -/
structure Past (text : String) (p : Position) (s : Stream lexer) : Prop where
  reachable : s.Reachable text
  handed : ∃ j t k u, j ≤ k ∧ lexer.FoundAt text j t ∧ lexer.FoundAt text k u ∧ p = t.start ∧
    s.lastEnd = u.span.stop ∧ s.StandsFrom text j

instance (text : String) (p : Position) : Closed (Since text p : Stream lexer → Prop) where
  look h := by
    obtain ⟨j, hj, hs⟩ := h.shown
    exact ⟨h.reachable.look, j, hj, hs.look⟩
  take h := by
    obtain ⟨j, hj, hs⟩ := h.shown
    exact ⟨h.reachable.take, j, hj, hs.take⟩
  back hs ht := by
    obtain ⟨j, hj, hstands⟩ := ht.shown
    exact ⟨hs.reachable.back ht.reachable, j, hj, hstands.back hs.reachable⟩
  nest h d := ⟨h.reachable.nest d, h.shown⟩
  note h e := ⟨h.reachable.note e, h.shown⟩

instance (text : String) (p : Position) : Closed (Past text p : Stream lexer → Prop) where
  look {s} h := by
    obtain ⟨j, t, k, u, hjk, ht, hu, hp, hend, hs⟩ := h.handed
    exact ⟨h.reachable.look, j, t, k, u, hjk, ht, hu, hp, (peek_frame s).1.trans hend, hs.look⟩
  take h := by
    obtain ⟨j, t, k, u, hjk, ht, hu, hp, hend, hs⟩ := h.handed
    have htaken := hs.take
    refine ⟨h.reachable.take, ?_⟩
    obtain ⟨m, hjm, hm⟩ := hs
    rcases lastEnd_next hm with ⟨w, hw, hend'⟩ | hend'
    · exact ⟨j, t, m, w, hjm, ht, hw, hp, hend', htaken⟩
    · exact ⟨j, t, k, u, hjk, ht, hu, hp, hend'.trans hend, htaken⟩
  back hs ht := by
    obtain ⟨j, t, k, u, hjk, hfirst, hu, hp, hend, hstands⟩ := ht.handed
    exact ⟨hs.reachable.back ht.reachable, j, t, k, u, hjk, hfirst, hu, hp, hend,
      hstands.back hs.reachable⟩
  nest h d := ⟨h.reachable.nest d, h.handed⟩
  note h e := ⟨h.reachable.note e, h.handed⟩

theorem Past.since {p : Position} (h : Past text p s) : Since text p s := by
  obtain ⟨j, t, k, u, -, ht, -, hp, -, hs⟩ := h.handed
  exact ⟨h.reachable, j, Or.inl ⟨t, ht, hp⟩, hs⟩

/-- Handing out a token leads past the start. -/
theorem Since.take {p : Position} (h : Since text p s) {s' : Stream lexer} {u : Token}
    (hn : next s = .ok (some u) s') : Past text p s' := by
  obtain ⟨j, hj, k, hjk, hk⟩ := h.shown
  have hreach := h.reachable.take
  have hstands := StandsFrom.take ⟨k, hjk, hk⟩
  rw [hn] at hreach hstands
  rw [next_eq] at hn
  cases hp : peek s with
  | error e s₁ => rw [hp] at hn; cases hn
  | ok found s₁ =>
    rw [hp] at hn
    cases hn
    have hu := foundAt_of_peek hk hp
    rcases hj with ⟨t, ht, hstart⟩ | ⟨hnone, -⟩
    · exact ⟨hreach, j, t, k, u, hjk, ht, hu, hstart, lastEnd_handOut hp, hstands⟩
    · cases (Lexer.found_eq_none hnone hjk).symm.trans hu

end Stream

/-! ## What is known of the places -/

/-- What is known of a stream over the text. -/
def Survey.ofText (lexer : Lexer) (text : String) : Survey lexer where
  states := Reachable text
  since := Since text
  past := Past text
  places := lexer.PlaceOf text
  spans := lexer.SpanOf text
  missing _ := True
  closed_states := inferInstance
  closed_since _ := inferInstance
  closed_past _ := inferInstance
  states_of_since h := h.reachable
  since_of_past h := h.since
  unreadable h he := by
    obtain ⟨k, hk⟩ := h.standsAt_place
    rcases peek_cases hk with ⟨t, s', -, hp, -⟩ | ⟨-, hp⟩ | ⟨e', hf, hp⟩ <;> rw [he] at hp <;>
      cases hp
    exact .unreadable hf
  token h ht := by
    obtain ⟨k, hk⟩ := h.standsAt_place
    have hfound := foundAt_of_peek hk ht
    exact .tokens (Nat.le_refl k) hfound hfound
  position {s _ _} h hp := by
    obtain ⟨k, hk⟩ := h.standsAt_place
    obtain ⟨hshown, hstands⟩ := position_shownAt hk hp
    have hreach := h.position
    rw [hp] at hreach
    exact ⟨.start hshown.startOf, hreach, k, hshown, hstands⟩
  take h ht := h.take ht
  lastEnd h := .stop h.stopOf
  settle h := by
    obtain ⟨j, hj, -⟩ := h.shown
    exact .run hj.startOf h.reachable.stopOf
  operation h := by
    obtain ⟨j, t, k, u, hjk, ht, hu, rfl, hend, -⟩ := h.handed
    rw [hend]
    exact .tokens hjk ht hu

end Descent
