import Descent.Proofs.Tagging

/-!
# Walks along the tokens of a text

A stream that has come to a result has passed tokens only, so that its place is a number of tokens:
`Stream.At text k` says that `k` of them are handed out. A walk is what an operation does from there
if it comes to a result: it leads on to a later place, and `Q` says of the place and of the result
what they are. `Lexer.Covers text a b` are the spans of the tokens from the one at `a` on up to the
one before `b`.

* `Covers.within`, `Covers.precedes`, `Covers.before`: spans lie as the places do.
* `walks_peek`, `walks_next`, `walks_position`: what the stream gives.
* `Walks.bind`, `walks_taking`: operations in a row, and those that may put a token back.
* `walks_attempt`: segments give their data the span of the tokens that they have passed.
-/
namespace Descent

open Descent.Stream

/-! ## The spans of tokens in a row -/

namespace Span

/-- No character of the first span lies outside of the second one. -/
def Within (s t : Span) : Prop := t.start.offset ≤ s.start.offset ∧ s.stop.offset ≤ t.stop.offset

/-- The first span ends before the second one begins, or where it begins. -/
def Precedes (s t : Span) : Prop := s.stop.offset ≤ t.start.offset

end Span

namespace Lexer

variable {lexer : Lexer} {text : String}

/-- The span reaches from the token behind `a` readings to the last one of the first `b`. -/
def Covers (lexer : Lexer) (text : String) (a b : Nat) (span : Span) : Prop :=
  ∃ c t u, b = c + 1 ∧ a ≤ c ∧ lexer.FoundAt text a t ∧ lexer.FoundAt text c u ∧
    span = ⟨t.start, u.span.stop⟩

variable {a b c d : Nat} {s s' : Span} (hkeeps : lexer.KeepsSpans)

include hkeeps

/-- Between more tokens lies a longer span. -/
theorem Covers.within (h : lexer.Covers text a b s) (h' : lexer.Covers text c d s') (hac : a ≤ c)
    (hdb : d ≤ b) : s'.Within s := by
  obtain ⟨i, t, u, rfl, -, ht, hu, rfl⟩ := h
  obtain ⟨j, t', u', rfl, -, ht', hu', rfl⟩ := h'
  exact ⟨ht.start_le hkeeps ht' hac, hu'.stop_le_stop hkeeps hu (Nat.le_of_succ_le_succ hdb)⟩

/-- The spans of earlier tokens come first. -/
theorem Covers.precedes (h : lexer.Covers text a b s) (h' : lexer.Covers text c d s')
    (hbc : b ≤ c) : s.Precedes s' := by
  obtain ⟨i, t, u, rfl, -, -, hu, rfl⟩ := h
  obtain ⟨j, t', u', rfl, -, ht', -, rfl⟩ := h'
  exact hu.stop_le hkeeps ht' hbc

/-- Where there is a token between two spans, they do not even touch. -/
theorem Covers.before (h : lexer.Covers text a b s) (h' : lexer.Covers text c d s')
    (hbc : b < c) : s.stop.offset < s'.start.offset := by
  obtain ⟨i, t, u, rfl, -, -, hu, rfl⟩ := h
  obtain ⟨j, t', u', rfl, -, ht', -, rfl⟩ := h'
  have hbetween : lexer.found (lexer.place text (i + 1)) ≠ .ok none := by
    intro hnone
    cases (found_eq_none hnone (Nat.le_of_lt hbc)).symm.trans ht'
  have hstep := (lexer.reaches_pass_of_found hbetween).offset_le
  have hplaces := (lexer.reaches_place text (show i + 1 + 1 ≤ c from hbc)).offset_le
  have hstop := (hu.offsets hkeeps).2.1
  have hstart := (ht'.offsets hkeeps).1
  simp only [place] at *
  omega

/-- A span of tokens covers its first one. -/
theorem Covers.token (h : lexer.Covers text a b s) :
    ∃ t, lexer.TokenOf text t ∧ t.span.Within s := by
  obtain ⟨c, t, u, rfl, hac, ht, hu, rfl⟩ := h
  exact ⟨t, ⟨a, ht⟩, Nat.le_refl _, ht.stop_le_stop hkeeps hu hac⟩

end Lexer

/-! ## Places as numbers of tokens -/

namespace Stream

variable {lexer : Lexer} {text : String}

/-- The stream has passed the first `k` tokens of the text, the last of them latest. At the end of
the text it may have looked on in vain. -/
structure At (text : String) (k : Nat) (s : Stream lexer) : Prop where
  found : ∀ c < k, ∃ t, lexer.FoundAt text c t
  stands : ∃ m, k ≤ m ∧ (k < m → lexer.found (lexer.place text k) = .ok none) ∧
    s.StandsAt (lexer.place text m)
  lastEnd : ∀ c t, k = c + 1 → lexer.FoundAt text c t → s.lastEnd = t.span.stop

theorem at_ofString (text : String) : (ofString text : Stream lexer).At text 0 :=
  ⟨nofun, ⟨0, Nat.le_refl 0, fun h => absurd h (Nat.lt_irrefl 0), standsAt_ofString text⟩, nofun⟩

namespace At

variable {k j : Nat} {s s' : Stream lexer}

theorem atDepth (h : s.At text k) (d : Nat) : (s.atDepth d).At text k :=
  ⟨h.found, h.stands, h.lastEnd⟩

theorem record (h : s.At text k) (e : Event) : (s.record e).At text k :=
  ⟨h.found, h.stands, h.lastEnd⟩

theorem returnTo {t : Stream lexer} (h : s.At text k) (ht : t.At text j) :
    (t.returnTo s.checkpoint).At text k := by
  refine ⟨h.found, ?_, h.lastEnd⟩
  obtain ⟨m, hkm, hend, hs⟩ := h.stands
  obtain ⟨n, -, -, ht⟩ := ht.stands
  refine ⟨m, hkm, hend, standsAt_returnTo hs (lexer.sound_place text m) ?_⟩
  rw [ht.text_eq, lexer.text_place, lexer.text_place]

/-- A look shows the token behind the `k` first ones, and nothing moves but at the end. -/
theorem peek (h : s.At text k) {found : Option Token} (hp : Stream.peek s = .ok found s') :
    s'.At text k ∧ lexer.found (lexer.place text k) = .ok found := by
  have hlast : s'.lastEnd = s.lastEnd := by
    have hframe := (peek_frame s).1
    rwa [hp] at hframe
  obtain ⟨m, hkm, hend, hs⟩ := h.stands
  rcases peek_cases hs with ⟨t, s₁, hf, hpeek, hsame⟩ | ⟨hf, hpeek⟩ | ⟨e, -, hpeek⟩ <;>
    rw [hp] at hpeek <;> cases hpeek
  · have hmk : k = m := by
      refine Nat.le_antisymm hkm (Nat.not_lt.1 fun hlt => ?_)
      cases (Lexer.found_eq_none (hend hlt) hkm).symm.trans hf
    subst hmk
    have hstands := hsame.symm.standsAt (standsAt_holding hf)
    refine ⟨⟨h.found, ⟨k, hkm, hend, hstands⟩, fun c u hc hu => ?_⟩, hf⟩
    rw [hlast, h.lastEnd c u hc hu]
  · have hnone : lexer.found (lexer.place text k) = .ok none := by
      rcases Nat.eq_or_lt_of_le hkm with rfl | hlt
      · exact hf
      · exact hend hlt
    have hstands := standsAt_passing s (lexer.place text m)
    exact ⟨⟨h.found, ⟨m + 1, by omega, fun _ => hnone, hstands⟩, h.lastEnd⟩, hnone⟩

/-- A token that is handed out is passed. -/
theorem next (h : s.At text k) {t : Token} (hn : Stream.next s = .ok (some t) s') :
    s'.At text (k + 1) ∧ lexer.FoundAt text k t := by
  rw [next_eq] at hn
  cases hp : Stream.peek s with
  | error e s₁ => rw [hp] at hn; cases hn
  | ok found s₁ =>
    rw [hp] at hn
    cases hn
    obtain ⟨hs₁, hfound⟩ := h.peek hp
    have hlast : s₁.handOut.lastEnd = t.span.stop := lastEnd_handOut hp
    obtain ⟨m, hkm, hend, hs₁⟩ := hs₁.stands
    have hmk : k = m := by
      refine Nat.le_antisymm hkm (Nat.not_lt.1 fun hlt => ?_)
      cases (hend hlt).symm.trans hfound
    subst hmk
    have hstands := standsAt_next hs₁
    rw [next_eq, peek_again hp] at hstands
    refine ⟨⟨fun c hc => ?_, ⟨k + 1, Nat.le_refl _, fun hlt => absurd hlt (Nat.lt_irrefl _),
      hstands⟩, fun c u hc hu => ?_⟩, hfound⟩
    · rcases Nat.eq_or_lt_of_le (Nat.le_of_lt_succ hc) with rfl | hlt
      · exact ⟨t, hfound⟩
      · exact h.found c hlt
    · obtain rfl : k = c := Nat.succ.inj hc
      rw [hlast, Lexer.FoundAt.unique hu hfound]

/-- At the end of the text there is nothing to hand out. -/
theorem next_none (h : s.At text k) (hn : Stream.next s = .ok none s') :
    s'.At text k ∧ lexer.found (lexer.place text k) = .ok none := by
  rw [next_eq] at hn
  cases hp : Stream.peek s with
  | error e s₁ => rw [hp] at hn; cases hn
  | ok found s₁ =>
    rw [hp] at hn
    cases hn
    obtain ⟨hs₁, hfound⟩ := h.peek hp
    cases hb : s₁.buffered with
    | some b =>
      have hagain := peek_again hp
      rw [peek_of_buffered hb] at hagain
      cases hagain
    | none =>
      have hsame : s₁.handOut = s₁ := by rw [handOut, hb]
      rw [hsame]
      exact ⟨hs₁, hfound⟩

theorem atEnd (h : s.At text k) {done : Bool} (hd : Stream.atEnd s = .ok done s') :
    s'.At text k ∧ (done = true → lexer.found (lexer.place text k) = .ok none) := by
  rw [atEnd_eq] at hd
  cases hp : Stream.peek s with
  | error e s₁ => rw [hp] at hd; cases hd
  | ok found s₁ =>
    rw [hp] at hd
    cases hd
    obtain ⟨hs, hfound⟩ := h.peek hp
    refine ⟨hs, fun hdone => ?_⟩
    rw [hfound, Option.isNone_iff_eq_none.1 hdone]

theorem position (h : s.At text k) {p : Position} (hp : Stream.position s = .ok p s') :
    s'.At text k ∧ ∀ t, lexer.FoundAt text k t → p = t.start := by
  rw [position_eq] at hp
  cases hpeek : Stream.peek s with
  | error e s₁ => rw [hpeek] at hp; cases hp
  | ok found s₁ =>
    rw [hpeek] at hp
    obtain ⟨hs, hfound⟩ := h.peek hpeek
    cases found with
    | none =>
      cases hp
      exact ⟨hs, fun t ht => by cases hfound.symm.trans ht⟩
    | some u =>
      cases hp
      exact ⟨hs, fun t ht => by rw [Lexer.FoundAt.unique ht hfound]⟩

/-- What begins at a token and ends with the last one that was passed covers the tokens between. -/
theorem covers (h : s.At text j) (hkj : k < j) {p : Position}
    (hp : ∀ t, lexer.FoundAt text k t → p = t.start) :
    lexer.Covers text k j ⟨p, s.lastEnd⟩ := by
  obtain ⟨c, rfl⟩ : ∃ c, j = c + 1 := ⟨j - 1, by omega⟩
  obtain ⟨t, ht⟩ := h.found k hkj
  obtain ⟨u, hu⟩ := h.found c (Nat.lt_succ_self c)
  refine ⟨c, t, u, rfl, Nat.le_of_lt_succ hkj, ht, hu, ?_⟩
  rw [hp t ht, h.lastEnd c u rfl hu]

/-- So does the span of a segment. -/
theorem covers_latest (hkeeps : lexer.KeepsSpans) (h : s.At text j) (hkj : k < j) {p : Position}
    (hp : ∀ t, lexer.FoundAt text k t → p = t.start) :
    lexer.Covers text k j ⟨p, p.latest s.lastEnd⟩ := by
  have hcovers := h.covers hkj hp
  have hlt : p.offset < s.lastEnd.offset := by
    obtain ⟨c, t, u, -, hkc, ht, hu, hspan⟩ := hcovers
    obtain ⟨hstart, hstop⟩ := Span.mk.inj hspan
    rw [hstart, hstop]
    exact ht.start_lt_stop hkeeps hu hkc
  have hlatest : p.latest s.lastEnd = s.lastEnd := by
    rw [Position.latest, Position.order_of_offset_lt hlt]
    rfl
  rwa [hlatest]

/-- A text that is passed from start to end can be read throughout. -/
theorem exists_tokens (h : s.At text k) (hend : lexer.found (lexer.place text k) = .ok none) :
    ∃ tokens : List Token, ∀ c, lexer.found (lexer.place text c) = .ok tokens[c]? := by
  have hfirst (n : Nat) (hn : n ≤ k) : ∃ tokens : List Token, tokens.length = n ∧
      ∀ c < n, lexer.found (lexer.place text c) = .ok tokens[c]? := by
    induction n with
    | zero => exact ⟨[], rfl, nofun⟩
    | succ n ih =>
      obtain ⟨tokens, hlength, hfound⟩ := ih (Nat.le_of_succ_le hn)
      obtain ⟨t, ht⟩ := h.found n hn
      refine ⟨tokens ++ [t], by simp [hlength], fun c hc => ?_⟩
      rcases Nat.eq_or_lt_of_le (Nat.le_of_lt_succ hc) with rfl | hlt
      · rw [List.getElem?_append_right (Nat.le_of_eq hlength), hlength, Nat.sub_self]
        exact ht
      · rw [List.getElem?_append_left (hlength ▸ hlt)]
        exact hfound c hlt
  obtain ⟨tokens, hlength, hfound⟩ := hfirst k (Nat.le_refl k)
  refine ⟨tokens, fun c => ?_⟩
  rcases Nat.lt_or_ge c k with hlt | hge
  · exact hfound c hlt
  · rw [List.getElem?_eq_none (hlength ▸ hge)]
    exact Lexer.found_eq_none hend hge

end At

end Stream

/-! ## Walks -/

/-- From behind `k` tokens the operation, if it comes to a result, leads on to a place of which `Q`
holds with the result. -/
def Walks {lexer : Lexer} {α : Type} (text : String) (k : Nat) (x : Parse lexer α)
    (Q : Nat → α → Prop) : Prop :=
  ∀ (s : Stream lexer) (a : α) (s' : Stream lexer), s.At text k → x s = .ok a s' →
    ∃ j, k ≤ j ∧ s'.At text j ∧ Q j a

section

variable {lexer : Lexer} {text : String} {k : Nat} {α β : Type} {Q R : Nat → α → Prop}

theorem walks_pure {a : α} (h : Q k a) : Walks text k (pure a : Parse lexer α) Q := by
  intro s _ s' hs hx
  cases hx
  exact ⟨k, Nat.le_refl k, hs, h⟩

theorem walks_throw (e : Stop) : Walks text k (throw e : Parse lexer α) Q := by
  intro s a s' _ hx
  cases hx

theorem walks_refuse (e : ParseError) : Walks text k (Parse.refuse e : Parse lexer α) Q :=
  walks_throw _

/-- What is refused in the end does not come to a result. -/
theorem walks_refused {x : Parse lexer β} {e : β → ParseError} :
    Walks text k (x >>= fun b => Parse.refuse (e b) : Parse lexer α) Q := by
  intro s a s' _ hx
  obtain ⟨b, t, -, hrefuse⟩ := ok_of_bind hx
  cases hrefuse

theorem Walks.bind {x : Parse lexer α} {f : α → Parse lexer β} {P : Nat → β → Prop}
    (hx : Walks text k x R) (hf : ∀ j a, k ≤ j → R j a → Walks text j (f a) P) :
    Walks text k (x >>= f) P := by
  intro s b s' hs h
  obtain ⟨a, t, hxs, hft⟩ := ok_of_bind h
  obtain ⟨i, hki, ht, hR⟩ := hx s a t hs hxs
  obtain ⟨j, hij, hs', hP⟩ := hf i a hki hR t b s' ht hft
  exact ⟨j, Nat.le_trans hki hij, hs', hP⟩

theorem Walks.mono {x : Parse lexer α} (h : Walks text k x R)
    (hRQ : ∀ j a, k ≤ j → R j a → Q j a) : Walks text k x Q := by
  intro s a s' hs hx
  obtain ⟨j, hkj, hs', hR⟩ := h s a s' hs hx
  exact ⟨j, hkj, hs', hRQ j a hkj hR⟩

theorem walks_get_bind {f : Stream lexer → Parse lexer α}
    (h : ∀ s : Stream lexer, s.At text k → Walks text k (f s) Q) :
    Walks text k (get >>= f) Q :=
  fun s a s' hs hx => h s hs s a s' hs hx

theorem walks_ofPull {x : Pull lexer α}
    (h : ∀ (s : Stream lexer) a s', s.At text k → x s = .ok a s' → s'.At text k ∧ Q k a) :
    Walks text k (Parse.ofPull x) Q := by
  intro s a s' hs hx
  unfold Parse.ofPull at hx
  split at hx
  · next hpull =>
    cases hx
    obtain ⟨hs', hQ⟩ := h s a s' hs hpull
    exact ⟨k, Nat.le_refl k, hs', hQ⟩
  · cases hx

theorem walks_peek : Walks text k (Parse.peek : Parse lexer _) fun j found =>
    j = k ∧ lexer.found (lexer.place text k) = .ok found :=
  walks_ofPull fun _ _ _ hs hp => ⟨(hs.peek hp).1, rfl, (hs.peek hp).2⟩

theorem walks_atEnd : Walks text k (Parse.atEnd : Parse lexer _) fun j done =>
    j = k ∧ (done = true → lexer.found (lexer.place text k) = .ok none) :=
  walks_ofPull fun _ _ _ hs hd => ⟨(hs.atEnd hd).1, rfl, (hs.atEnd hd).2⟩

theorem walks_position : Walks text k (Parse.position : Parse lexer _) fun j p =>
    j = k ∧ ∀ t, lexer.FoundAt text k t → p = t.start :=
  walks_ofPull fun _ _ _ hs hp => ⟨(hs.position hp).1, rfl, (hs.position hp).2⟩

theorem walks_next : Walks text k (Parse.next : Parse lexer _) fun j found =>
    lexer.found (lexer.place text k) = .ok found ∧ (found.isSome = true → j = k + 1) := by
  intro s found s' hs hx
  unfold Parse.next Parse.ofPull at hx
  split at hx
  · next hn =>
    cases hx
    cases found with
    | none =>
      obtain ⟨hs', hfound⟩ := hs.next_none hn
      exact ⟨k, Nat.le_refl k, hs', hfound, nofun⟩
    | some t =>
      obtain ⟨hs', hfound⟩ := hs.next hn
      exact ⟨k + 1, Nat.le_succ k, hs', hfound, fun _ => rfl⟩
  · cases hx

theorem walks_record (e : Event) :
    Walks text k (Parse.record e : Parse lexer Unit) fun j _ => j = k := by
  intro s _ s' hs hx
  cases hx
  exact ⟨k, Nat.le_refl k, hs.record e, rfl⟩

theorem Walks.deeper {x : Parse lexer α} (h : Walks text k x Q) :
    Walks text k (Parse.deeper x) Q := by
  intro s a s' hs hx
  obtain ⟨t, hxs, rfl⟩ := ok_of_deeper hx
  obtain ⟨j, hkj, ht, hQ⟩ := h _ a t (hs.atDepth _) hxs
  exact ⟨j, hkj, ht.atDepth _, hQ⟩

/-- A token is taken, and with it what stands behind it; or both are put back. -/
theorem walks_taking {missing right : Parse lexer Outcome}
    {answer : Token → Outcome → Parse lexer Outcome} {P S : Nat → Outcome → Prop}
    (hmissing : ∀ j, k ≤ j → Walks text j missing P) (hright : Walks text (k + 1) right S)
    (hanswer : ∀ token j o, k < j → o.isMatch = true → S j o → Walks text j (answer token o) P)
    (hfailed : ∀ o : Outcome, o.isMatch = false → P k o) :
    Walks text k (do
      let before ← get
      match ← Parse.next with
      | none => missing
      | some token =>
        let o ← right
        if o.isMatch then answer token o
        else
          modify (·.returnTo before.checkpoint)
          return o) P := by
  intro s o s' hs hx
  obtain ⟨found, s₁, hn, hx⟩ := ok_of_bind (show (Parse.next >>= _) s = .ok o s' from hx)
  obtain ⟨j, hkj, hs₁, hfound⟩ := walks_next s found s₁ hs hn
  cases found with
  | none =>
    obtain ⟨i, hji, hs', hP⟩ := hmissing j hkj s₁ o s' hs₁ hx
    exact ⟨i, Nat.le_trans hkj hji, hs', hP⟩
  | some token =>
    obtain rfl : j = k + 1 := hfound.2 rfl
    obtain ⟨o₁, s₂, hr, hx⟩ := ok_of_bind hx
    obtain ⟨i, hi, hs₂, hS⟩ := hright s₁ o₁ s₂ hs₁ hr
    split at hx
    · next hm =>
      obtain ⟨n, hin, hs', hP⟩ := hanswer token i o₁ hi hm hS s₂ o s' hs₂ hx
      exact ⟨n, by omega, hs', hP⟩
    · next hm =>
      cases hx
      exact ⟨k, Nat.le_refl k, hs.returnTo hs₂, hfailed o (by simpa using hm)⟩

/-- A match of a segment is a match of its body, with the span of the tokens that were passed. -/
theorem walks_attempt (hkeeps : lexer.KeepsSpans) (options : Options) {body : Parse lexer Outcome}
    {P : Nat → Outcome → Prop} (h : Walks text k body P) :
    Walks text k (attempt options body) fun j o => o.isMatch = true →
      ∃ inside span, P j inside ∧ inside.isMatch = true ∧
        (k < j → lexer.Covers text k j span) ∧
        o.data? = inside.data?.map (Outcome.located span) ∧
        o.key = options.key.or inside.key ∧
        o.nesting = if options.nesting = .inherit then inside.nesting else options.nesting := by
  rw [attempt_eq]
  refine walks_position.bind fun _ start _ ⟨hj, hstart⟩ => ?_
  subst hj
  refine walks_get_bind fun _ _ => (walks_record _).bind fun _ _ _ hj => ?_
  subst hj
  intro s o s' hs hx
  unfold settled at hx
  cases hb : body s with
  | error e s₁ => rw [hb] at hx; cases hx
  | ok inside s₁ =>
    rw [hb] at hx
    obtain ⟨j, hkj, hs₁, hP⟩ := h s inside s₁ hs hb
    simp only at hx
    split at hx <;> rename_i hv <;> cases hx
    · refine ⟨j, hkj, hs₁, fun _ => ⟨inside, ⟨start, start.latest s'.lastEnd⟩, hP, ?_, ?_, ?_, rfl,
        rfl⟩⟩
      · rw [Outcome.isMatch, hv]
      · exact fun hlt => hs₁.covers_latest hkeeps hlt hstart
      · simp only [Outcome.settleMatch, Outcome.data?, hv]
    · refine ⟨_, Nat.le_refl _, (hs.returnTo hs₁).record _, fun hm => ?_⟩
      cases hm

end

end Descent
