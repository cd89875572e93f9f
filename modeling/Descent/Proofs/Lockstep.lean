import Descent.Proofs.Balance
import Descent.Proofs.Erasure
import Descent.Proofs.Tokens

/-!
# Two parses side by side

Two texts with the same tokens may differ in what lies between the tokens. Operations on streams
over them go in lockstep if from any two states at one place they lead to two states at one place,
with results that say the same. Offsets differ between the two texts, but the offsets of the places
that a stream has looked from are ordered alike in both.

* `Lockstep.bind`: operations in a row.
* `readAlike_peek`, `readAlike_next`, `readAlike_position`, `readAlike_atEnd`: reading.
* `lockstep_attempt`: a run of a segment, whatever its body does in lockstep.
-/
namespace Descent

open Descent.Stream

/-- What a token says. -/
def Token.content (t : Token) : String × TokenValue := (t.kind, t.value)

/-- The texts have tokens that say the same. -/
def Tokenized.Alike (x y : Tokenized) : Prop :=
  x.tokens.map Token.content = y.tokens.map Token.content

namespace Tokenized.Alike

variable {x y : Tokenized} (h : x.Alike y)
include h

theorem count_eq : x.count = y.count := by
  have := congrArg List.length h
  rwa [List.length_map, List.length_map] at this

theorem seen_eq (k : Nat) : x.seen k = y.seen k := by
  unfold seen
  rw [h.count_eq]

theorem looked_iff {k : Nat} : x.Looked k ↔ y.Looked k := by
  rw [Tokenized.Looked, Tokenized.Looked, h.count_eq]

theorem content_getElem? (k : Nat) :
    x.tokens[k]?.map Token.content = y.tokens[k]?.map Token.content := by
  rw [← List.getElem?_map, ← List.getElem?_map, h]

end Tokenized.Alike

/-- Two streams stand at the same place of their texts. -/
structure Level (x y : Tokenized) (k : Nat) (s : Stream x.lexer) (t : Stream y.lexer) : Prop where
  le : k ≤ x.count + 1
  left : s.StandsAt (x.place k)
  right : t.StandsAt (y.place k)

variable {x y : Tokenized} {α β γ δ : Type}

theorem Level.atDepth {k : Nat} {s : Stream x.lexer} {t : Stream y.lexer} (h : Level x y k s t)
    (d e : Nat) : Level x y k (s.atDepth d) (t.atDepth e) :=
  ⟨h.le, h.left.atDepth d, h.right.atDepth e⟩

theorem Level.record {k : Nat} {s : Stream x.lexer} {t : Stream y.lexer} (h : Level x y k s t)
    (e f : Event) : Level x y k (s.record e) (t.record f) :=
  ⟨h.le, h.left.record e, h.right.record f⟩

theorem Level.returnTo {j k : Nat} {s s' : Stream x.lexer} {t t' : Stream y.lexer}
    (h : Level x y k s t) (h' : Level x y j s' t') :
    Level x y k (s'.returnTo s.checkpoint) (t'.returnTo t.checkpoint) :=
  ⟨h.le, Tokenized.returnTo_at h.left h'.left, Tokenized.returnTo_at h.right h'.right⟩

/-- From two states at the place `k` both operations come to results that are related by `Q`, in
states at one place, or both end with errors that say the same. -/
def Lockstep (x y : Tokenized) (k : Nat) (p : Parse x.lexer α) (q : Parse y.lexer β)
    (Q : Nat → α → β → Prop) : Prop :=
  ∀ s t, Level x y k s t →
    (∃ a s' b t' j, p s = .ok a s' ∧ q t = .ok b t' ∧ Level x y j s' t' ∧ Q j a b) ∨
    ∃ e s' e' t', p s = .error e s' ∧ q t = .error e' t' ∧ e.unplaced = e'.unplaced

/-! ## Operations in a row -/

section

variable {k : Nat} {p : Parse x.lexer α} {q : Parse y.lexer β} {Q R : Nat → α → β → Prop}

theorem lockstep_pure {a : α} {b : β} (h : Q k a b) : Lockstep x y k (pure a) (pure b) Q :=
  fun s t hl => Or.inl ⟨a, s, b, t, k, rfl, rfl, hl, h⟩

theorem lockstep_throw {e e' : Stop} (h : e.unplaced = e'.unplaced) :
    Lockstep x y k (throw e : Parse x.lexer α) (throw e' : Parse y.lexer β) Q :=
  fun s t _ => Or.inr ⟨e, s, e', t, rfl, rfl, h⟩

theorem lockstep_refuse {e e' : ParseError} (h : e.unplaced = e'.unplaced) :
    Lockstep x y k (Parse.refuse e : Parse x.lexer α) (Parse.refuse e' : Parse y.lexer β) Q :=
  lockstep_throw (congrArg Stop.error h)

theorem Lockstep.mono (h : Lockstep x y k p q Q)
    (hQ : ∀ j a b, j ≤ x.count + 1 → Q j a b → R j a b) : Lockstep x y k p q R := by
  intro s t hl
  rcases h s t hl with ⟨a, s', b, t', j, hp, hq, hl', hab⟩ | herror
  · exact Or.inl ⟨a, s', b, t', j, hp, hq, hl', hQ j a b hl'.le hab⟩
  · exact Or.inr herror

theorem Lockstep.bind {f : α → Parse x.lexer γ} {g : β → Parse y.lexer δ}
    {S : Nat → γ → δ → Prop} (h : Lockstep x y k p q Q)
    (hfg : ∀ j a b, j ≤ x.count + 1 → Q j a b → Lockstep x y j (f a) (g b) S) :
    Lockstep x y k (p >>= f) (q >>= g) S := by
  intro s t hl
  rw [bind_apply, bind_apply]
  rcases h s t hl with ⟨a, s', b, t', j, hp, hq, hl', hab⟩ | ⟨e, s', e', t', hp, hq, he⟩
  · rw [hp, hq]
    exact hfg j a b hl'.le hab s' t' hl'
  · rw [hp, hq]
    exact Or.inr ⟨e, s', e', t', rfl, rfl, he⟩

theorem lockstep_get_bind {f : Stream x.lexer → Parse x.lexer α}
    {g : Stream y.lexer → Parse y.lexer β}
    (h : ∀ s t, Level x y k s t → Lockstep x y k (f s) (g t) Q) :
    Lockstep x y k (get >>= f) (get >>= g) Q :=
  fun s t hl => h s t hl s t hl

theorem lockstep_modify_bind {m : Stream x.lexer → Stream x.lexer}
    {m' : Stream y.lexer → Stream y.lexer} {j : Nat} {f : PUnit → Parse x.lexer α}
    {g : PUnit → Parse y.lexer β} (hm : ∀ s t, Level x y k s t → Level x y j (m s) (m' t))
    (h : Lockstep x y j (f ⟨⟩) (g ⟨⟩) Q) :
    Lockstep x y k (modify m >>= f) (modify m' >>= g) Q :=
  fun s t hl => h (m s) (m' t) (hm s t hl)

theorem Lockstep.deeper (h : Lockstep x y k p q Q) :
    Lockstep x y k (Parse.deeper p) (Parse.deeper q) Q := by
  intro s t hl
  rw [deeper_apply, deeper_apply]
  rcases h _ _ (hl.atDepth (s.depth + 1) (t.depth + 1)) with
    ⟨a, s', b, t', j, hp, hq, hl', hab⟩ | ⟨e, s', e', t', hp, hq, he⟩
  · rw [hp, hq]
    exact Or.inl ⟨a, _, b, _, j, rfl, rfl, hl'.atDepth _ _, hab⟩
  · rw [hp, hq]
    exact Or.inr ⟨e, _, e', _, rfl, rfl, he⟩

end

/-! ## Reading -/

/-- From two states at the place `k` both operations read without an error. -/
def ReadAlike (x y : Tokenized) (k : Nat) (p : Pull x.lexer α) (q : Pull y.lexer β)
    (Q : Nat → α → β → Prop) : Prop :=
  ∀ s t, Level x y k s t →
    ∃ a s' b t' j, p s = .ok a s' ∧ q t = .ok b t' ∧ Level x y j s' t' ∧ Q j a b

section

variable {k : Nat} {p : Pull x.lexer α} {q : Pull y.lexer β} {Q : Nat → α → β → Prop}

theorem ReadAlike.ofPull (h : ReadAlike x y k p q Q) :
    Lockstep x y k (Parse.ofPull p) (Parse.ofPull q) Q := by
  intro s t hl
  obtain ⟨a, s', b, t', j, hp, hq, hl', hab⟩ := h s t hl
  refine Or.inl ⟨a, s', b, t', j, ?_, ?_, hl', hab⟩
  · rw [Parse.ofPull, hp]
  · rw [Parse.ofPull, hq]

theorem ReadAlike.answerOf (h : ReadAlike x y k p q Q) :
    Lockstep x y k (answerOf p) (answerOf q) fun j a b =>
      ∃ c d, a = .ok c ∧ b = .ok d ∧ Q j c d := by
  intro s t hl
  obtain ⟨a, s', b, t', j, hp, hq, hl', hab⟩ := h s t hl
  refine Or.inl ⟨.ok a, s', .ok b, t', j, ?_, ?_, hl', a, b, rfl, rfl, hab⟩
  · rw [Descent.answerOf, hp]
  · rw [Descent.answerOf, hq]

end

section

variable (hxy : x.Alike y) (k : Nat)
include hxy

/-- Both show the token at the place, if there is one. -/
theorem readAlike_peek :
    ReadAlike x y k Stream.peek Stream.peek fun j a b =>
      j = x.seen k ∧ a.map Token.content = b.map Token.content ∧ (a = none ↔ x.count ≤ k) := by
  intro s t hl
  obtain ⟨s', hp, hs⟩ := Tokenized.peek_at hl.left
  obtain ⟨t', hq, ht⟩ := Tokenized.peek_at hl.right
  rw [← hxy.seen_eq] at ht
  exact ⟨x.tokens[k]?, s', y.tokens[k]?, t', x.seen k, hp, hq, ⟨Tokenized.seen_le, hs, ht⟩,
    rfl, hxy.content_getElem? k, List.getElem?_eq_none_iff⟩

theorem readAlike_next :
    ReadAlike x y k Stream.next Stream.next fun j a b =>
      j = min (k + 1) (x.count + 1) ∧ a.map Token.content = b.map Token.content := by
  intro s t hl
  obtain ⟨s', hp, hs⟩ := Tokenized.next_at hl.left
  obtain ⟨t', hq, ht⟩ := Tokenized.next_at hl.right
  have hlevel : Level x y (min (k + 1) (x.count + 1)) s' t' := by
    by_cases hk : k ≤ x.count
    · rw [Nat.min_eq_left (by omega)]
      exact ⟨by omega, hs, ht⟩
    · have hy := hxy.count_eq
      rw [Nat.min_eq_right (by omega)]
      rw [Tokenized.place_of_count_lt (show x.count < k + 1 by omega)] at hs
      rw [Tokenized.place_of_count_lt (show y.count < k + 1 by omega), ← hy] at ht
      exact ⟨Nat.le_refl _, hs, ht⟩
  exact ⟨x.tokens[k]?, s', y.tokens[k]?, t', _, hp, hq, hlevel, rfl, hxy.content_getElem? k⟩

theorem readAlike_position :
    ReadAlike x y k Stream.position Stream.position fun j _ _ => j = x.seen k := by
  intro s t hl
  obtain ⟨p, s', hp, hs⟩ := Tokenized.position_at hl.left
  obtain ⟨q, t', hq, ht⟩ := Tokenized.position_at hl.right
  rw [← hxy.seen_eq] at ht
  exact ⟨p, s', q, t', x.seen k, hp, hq, ⟨Tokenized.seen_le, hs, ht⟩, rfl⟩

theorem readAlike_atEnd :
    ReadAlike x y k Stream.atEnd Stream.atEnd fun j a b =>
      j = x.seen k ∧ a = decide (x.count ≤ k) ∧ b = decide (x.count ≤ k) := by
  intro s t hl
  obtain ⟨s', hp, hs⟩ := Tokenized.atEnd_at hl.left
  obtain ⟨t', hq, ht⟩ := Tokenized.atEnd_at hl.right
  rw [← hxy.seen_eq] at ht
  rw [← hxy.count_eq] at hq
  exact ⟨_, s', _, t', x.seen k, hp, hq, ⟨Tokenized.seen_le, hs, ht⟩, rfl, rfl, rfl⟩

end

/-! ## Outcomes -/

/-- What the body of a segment that began at the place `k` may come to, at the place `j`. If it
fails, its attempts have come as far as to a place from which it looked. -/
inductive Done (x y : Tokenized) (k j : Nat) (o o' : Outcome) : Prop
  | matched (hm : o.isMatch = true) (hm' : o'.isMatch = true) (alike : o.unplaced = o'.unplaced)
    (le : k ≤ j)
  /-- The failure is noticed here. -/
  | noticed (hm : o.isMatch = false) (hm' : o'.isMatch = false) (alike : o.unplaced = o'.unplaced)
    (le : k ≤ j) (looked : x.Looked j) (reached : o.reached = 0) (reached' : o'.reached = 0)
  /-- The failure comes from a run inside, which came to the place `r`. -/
  | passed (hm : o.isMatch = false) (hm' : o'.isMatch = false) (alike : o.unplaced = o'.unplaced)
    (le : k ≤ j) (r : Nat) (jr : j ≤ r ∨ x.Looked j) (looked : x.Looked r)
    (reached : o.reached = x.offset r) (reached' : o'.reached = y.offset r)

/-- What the run of a segment that began at the place `k` comes to, at the place `j`. A failure ends
where the look at the first token led, and tells the offset of the place it has come to. -/
inductive Ran (x y : Tokenized) (k j : Nat) (o o' : Outcome) : Prop
  | matched (hm : o.isMatch = true) (hm' : o'.isMatch = true) (alike : o.unplaced = o'.unplaced)
    (le : x.seen k ≤ j) (idle : o.progress = 0 ↔ j = x.seen k)
    (idle' : o'.progress = 0 ↔ j = x.seen k)
  | failed (hm : o.isMatch = false) (hm' : o'.isMatch = false) (alike : o.unplaced = o'.unplaced)
    (back : j = x.seen k) (r : Nat) (jr : j ≤ r) (looked : x.Looked r)
    (reached : o.reached = x.offset r) (reached' : o'.reached = y.offset r)
    (progress : o.progress = x.offset r - x.offset j)
    (progress' : o'.progress = y.offset r - y.offset j)

section

variable {i j k : Nat} {o o' : Outcome}

theorem Ran.alike (h : Ran x y k j o o') : o.unplaced = o'.unplaced := by
  cases h <;> assumption

theorem Ran.isMatch_eq (h : Ran x y k j o o') : o'.isMatch = o.isMatch := by
  cases h with
  | matched hm hm' => rw [hm, hm']
  | failed hm hm' => rw [hm, hm']

theorem Ran.le (h : Ran x y k j o o') : x.seen k ≤ j := by
  cases h with
  | matched _ _ _ le => exact le
  | failed _ _ _ back => exact Nat.le_of_eq back.symm

theorem Ran.start_le (h : Ran x y k j o o') (hk : k ≤ x.count + 1) : k ≤ j :=
  Nat.le_trans (x.le_seen hk) h.le

theorem Ran.back (h : Ran x y k j o o') (hm : o.isMatch = false) : j = x.seen k := by
  cases h with
  | matched hm' => rw [hm] at hm'; cases hm'
  | failed _ _ _ back => exact back

/-- A body may hand on what a run inside of it came to. -/
theorem Ran.done (h : Ran x y i j o o') (hi : i ≤ x.count + 1) (hk : k ≤ i) :
    Done x y k j o o' := by
  have hj := h.start_le hi
  cases h with
  | matched hm hm' alike le => exact .matched hm hm' alike (by omega)
  | failed hm hm' alike back r jr looked reached reached' =>
    exact .passed hm hm' alike (by omega) r (.inl jr) looked reached reached'

theorem Done.alike (h : Done x y k j o o') : o.unplaced = o'.unplaced := by
  cases h <;> assumption

theorem Done.isMatch_eq (h : Done x y k j o o') : o'.isMatch = o.isMatch := by
  cases h with
  | matched hm hm' => rw [hm, hm']
  | noticed hm hm' => rw [hm, hm']
  | passed hm hm' => rw [hm, hm']

theorem Done.of_le (h : Done x y i j o o') (hk : k ≤ i) : Done x y k j o o' := by
  cases h with
  | matched hm hm' alike le => exact .matched hm hm' alike (by omega)
  | noticed hm hm' alike le looked reached reached' =>
    exact .noticed hm hm' alike (by omega) looked reached reached'
  | passed hm hm' alike le r jr looked reached reached' =>
    exact .passed hm hm' alike (by omega) r jr looked reached reached'

theorem Done.le (h : Done x y k j o o') : k ≤ j := by
  cases h <;> assumption

/-- A failed body has come to a place from which it looked, and the offset of this place is the
greater one of what it tells and where it ended. -/
theorem Done.came (h : Done x y k j o o') (hm : o.isMatch = false) :
    o'.isMatch = false ∧ o.unplaced = o'.unplaced ∧ k ≤ j ∧
      ∃ r, j ≤ r ∧ x.Looked r ∧ max o.reached (x.offset j) = x.offset r ∧
        max o'.reached (y.offset j) = y.offset r := by
  cases h with
  | matched hm₁ => rw [hm] at hm₁; cases hm₁
  | noticed _ hm' alike le looked reached reached' =>
    refine ⟨hm', alike, le, j, Nat.le_refl j, looked, ?_, ?_⟩ <;> omega
  | passed _ hm' alike le r jr looked reached reached' =>
    rcases Nat.le_or_le j r with hjr | hrj
    · have hx := x.offset_le hjr
      have hy := y.offset_le hjr
      refine ⟨hm', alike, le, r, hjr, looked, ?_, ?_⟩ <;> omega
    · have hj : x.Looked j := jr.elim (fun h => Nat.le_antisymm h hrj ▸ looked) id
      have hx := x.offset_le hrj
      have hy := y.offset_le hrj
      refine ⟨hm', alike, le, j, Nat.le_refl j, hj, ?_, ?_⟩ <;> omega

/-- A match has read nothing exactly if it ends at the place at which it began. -/
theorem Tokenized.offset_sub_eq_zero (hk : x.Looked k) (hkj : k ≤ j) (hj : j ≤ x.count + 1) :
    x.offset j - x.offset k = 0 ↔ j = k := by
  constructor
  · intro h
    by_cases hlt : k < j
    · have := x.offset_lt hlt hj hk
      omega
    · omega
  · rintro rfl
    omega

end

section

variable {options : Options} {p q : Position} {body : Parse x.lexer Outcome}
  {body' : Parse y.lexer Outcome} {s s' : Stream x.lexer} {t t' : Stream y.lexer} {j k : Nat}
  {o o' : Outcome} (hk : x.Looked k) (hl : Level x y k s t)
  (hp : body s = .ok o s') (hq : body' t = .ok o' t') (hl' : Level x y j s' t')
  (hd : Done x y k j o o')
include hk hl hp hq hl' hd

/-- A body that matches makes a run that matches, which has read something on both texts or on
neither. -/
theorem Done.settled_match (hxy : x.Alike y) (hm : o.isMatch = true) :
    ∃ r r', settled options p body s = .ok r s' ∧ settled options q body' t = .ok r' t' ∧
      Ran x y k j r r' := by
  have hseen : x.seen k = k := x.seen_of_looked hk
  have hcount := hxy.count_eq
  obtain ⟨hm', alike, le⟩ : o'.isMatch = true ∧ o.unplaced = o'.unplaced ∧ k ≤ j := by
    cases hd with
    | matched _ hm' alike le => exact ⟨hm', alike, le⟩
    | noticed hm₁ => rw [hm] at hm₁; cases hm₁
    | passed hm₁ => rw [hm] at hm₁; cases hm₁
  refine ⟨_, _, settled_of_match hp hm, settled_of_match hq hm', .matched rfl rfl ?_ ?_ ?_ ?_⟩
  · rw [Outcome.unplaced_settleMatch, Outcome.unplaced_settleMatch, Outcome.alike_data? alike,
      alike]
  · omega
  · rw [hseen, Outcome.settleMatch, Tokenized.offset_at hl.left, Tokenized.offset_at hl'.left]
    exact Tokenized.offset_sub_eq_zero hk le hl'.le
  · rw [hseen, Outcome.settleMatch, Tokenized.offset_at hl.right, Tokenized.offset_at hl'.right]
    exact Tokenized.offset_sub_eq_zero (hxy.looked_iff.1 hk) le (hcount ▸ hl'.le)

/-- A body that fails makes a run that fails at the place at which it began, and tells how far it
came. -/
theorem Done.settled_failure (hm : o.isMatch = false) :
    ∃ r s₁ r' t₁, settled options p body s = .ok r s₁ ∧ settled options q body' t = .ok r' t₁ ∧
      Level x y k s₁ t₁ ∧ Ran x y k k r r' := by
  have hseen : x.seen k = k := x.seen_of_looked hk
  obtain ⟨hm', alike, le, r, jr, looked, hx, hy⟩ := hd.came hm
  obtain ⟨f, e, hv, hps⟩ := settled_of_failure hp hm
  obtain ⟨f', e', hv', hqt⟩ := settled_of_failure hq hm'
  have hf : f.reached = o.reached := by rw [Outcome.reached, hv]
  have hf' : f'.reached = o'.reached := by rw [Outcome.reached, hv']
  refine ⟨_, _, _, _, hps, hqt, (hl.returnTo hl').record e e',
    .failed rfl rfl ?_ hseen.symm r (by omega) looked ?_ ?_ ?_ ?_⟩
  · rw [Outcome.unplaced_settleFailure hv, Outcome.unplaced_settleFailure hv', alike]
  · show max f.reached s'.offset = _
    rw [hf, Tokenized.offset_at hl'.left, hx]
  · show max f'.reached t'.offset = _
    rw [hf', Tokenized.offset_at hl'.right, hy]
  · show max f.reached s'.offset - s.offset = _
    rw [hf, Tokenized.offset_at hl'.left, hx, Tokenized.offset_at hl.left]
  · show max f'.reached t'.offset - t.offset = _
    rw [hf', Tokenized.offset_at hl'.right, hy, Tokenized.offset_at hl.right]

end

/-- What comes of a body becomes what comes of the run. -/
theorem lockstep_settled (hxy : x.Alike y) {k : Nat} (options : Options) (p q : Position)
    {body : Parse x.lexer Outcome} {body' : Parse y.lexer Outcome} (hk : x.Looked k)
    (hb : Lockstep x y k body body' (Done x y k)) :
    Lockstep x y k (settled options p body) (settled options q body') (Ran x y k) := by
  intro s t hl
  rcases hb s t hl with ⟨o, s', o', t', j, hp, hq, hl', hd⟩ | ⟨e, s', e', t', hp, hq, he⟩
  · cases hm : o.isMatch with
    | true =>
      obtain ⟨r, r', hps, hqt, hr⟩ := hd.settled_match hk hl hp hq hl' hxy hm
      exact Or.inl ⟨r, s', r', t', j, hps, hqt, hl', hr⟩
    | false =>
      obtain ⟨r, s₁, r', t₁, hps, hqt, hl₁, hr⟩ := hd.settled_failure hk hl hp hq hl' hm
      exact Or.inl ⟨r, s₁, r', t₁, k, hps, hqt, hl₁, hr⟩
  · unfold settled
    rw [hp, hq]
    exact Or.inr ⟨e, _, e', _, rfl, rfl, he⟩

/-- A segment runs in lockstep if its body does so from where the look at its first token leads. -/
theorem lockstep_attempt (hxy : x.Alike y) {k : Nat} (options : Options)
    {body : Parse x.lexer Outcome} {body' : Parse y.lexer Outcome}
    (hb : Lockstep x y (x.seen k) body body' (Done x y (x.seen k))) :
    Lockstep x y k (attempt options body) (attempt options body') (Ran x y k) := by
  rw [attempt_eq, attempt_eq]
  refine (readAlike_position hxy k).ofPull.bind ?_
  rintro _ p q - rfl
  refine lockstep_get_bind fun s t _ => ?_
  refine lockstep_modify_bind (fun s t hl => hl.record _ _) ?_
  refine (lockstep_settled hxy options p q x.looked_seen hb).mono fun j o o' _ h => ?_
  have hseen : x.seen (x.seen k) = x.seen k := x.seen_of_looked x.looked_seen
  cases h with
  | matched hm hm' alike le idle idle' =>
    rw [hseen] at le idle idle'
    exact .matched hm hm' alike le idle idle'
  | failed hm hm' alike back r jr looked reached reached' progress progress' =>
    rw [hseen] at back
    exact .failed hm hm' alike back r jr looked reached reached' progress progress'

end Descent
