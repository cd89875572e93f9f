import Descent.Proofs.Lookahead

/-!
# Texts as tokens

A `Tokenized` text is one that its lexer reads from start to end without an error. A stream over it
stands before one of its tokens, at the end of the last one, or at the end of the text: places
`0` to `count - 1`, `count` and `count + 1`. The last two differ if skipped text ends the text, and
a look leads from the one to the other.

* `Tokenized.ofTokenize`: what the lexer tokenizes is such a text.
* `offset_lt`: the offsets of the places grow, but perhaps for the last one.
* `peek_at`, `next_at`: what a stream at a place shows and hands out, and where it stands then.
-/
namespace Descent

open Descent.Stream

/-- A text that its lexer reads as these tokens, one after the other. -/
structure Tokenized where
  lexer : Lexer
  text : String
  tokens : List Token
  found : ∀ k, lexer.found (lexer.place text k) = .ok tokens[k]?

namespace Lexer

variable {lexer : Lexer} {text : String}

/-- From the end of the text no reading leads away. -/
theorem place_add_of_atEnd {i : Nat} (h : (lexer.place text i).atEnd = true) (k : Nat) :
    lexer.place text (i + k) = lexer.place text i := by
  induction k with
  | zero => rfl
  | succ k ih => rw [← Nat.add_assoc, place, ih, lexer.pass_of_atEnd h]

theorem found_place_of_atEnd {i : Nat} (h : (lexer.place text i).atEnd = true) (k : Nat) :
    lexer.found (lexer.place text (i + k)) = .ok none := by
  rw [place_add_of_atEnd h, lexer.found_of_atEnd h]

/-- The tokens that are read from a place on are found at the places that follow. -/
theorem found_of_readAll {fuel i : Nat} {tokens : List Token} {d : Cursor}
    (h : lexer.readAll fuel (lexer.place text i) = .ok tokens d)
    (hfuel : (lexer.place text i).rest.length ≤ fuel) (k : Nat) :
    lexer.found (lexer.place text (i + k)) = .ok tokens[k]? := by
  induction fuel generalizing i k tokens with
  | zero =>
    have hend : (lexer.place text i).atEnd = true := by
      rw [Cursor.atEnd, List.isEmpty_iff]; exact List.length_eq_zero_iff.1 (Nat.le_zero.1 hfuel)
    cases h
    exact found_place_of_atEnd hend k
  | succ fuel ih =>
    simp only [readAll, bind_apply] at h
    cases hr : lexer.read (lexer.place text i) with
    | error e c => rw [hr] at h; cases h
    | ok lexed c =>
      rw [hr] at h
      have hpass : lexer.place text (i + 1) = c := by rw [place, pass, hr]; rfl
      have hf : lexer.found (lexer.place text i) = .ok lexed.token? := by rw [found, hr]
      simp only at h
      cases ht : lexed.token? with
      | none =>
        rw [ht] at h hf
        cases h
        have hend : (lexer.place text (i + 1)).atEnd = true := lexer.atEnd_pass hf
        cases k with
        | zero => exact hf
        | succ k => rw [Nat.add_comm k 1, ← Nat.add_assoc]; exact found_place_of_atEnd hend k
      | some t =>
        rw [ht] at h hf
        simp only [Functor.map, EStateM.map, ← hpass] at h
        cases hm : lexer.readAll fuel (lexer.place text (i + 1)) with
        | error e c => rw [hm] at h; cases h
        | ok more c =>
          rw [hm] at h
          cases h
          have hlen : (lexer.place text (i + 1)).rest.length + 1 ≤
              (lexer.place text i).rest.length :=
            (lexer.reaches_pass_of_found (by rw [hf]; simp)).length_le
          cases k with
          | zero => exact hf
          | succ k =>
            rw [Nat.add_comm k 1, ← Nat.add_assoc]
            rw [ih hm (by omega) k, Nat.add_comm 1 k, List.getElem?_cons_succ]

end Lexer

namespace Tokenized

/-- A text that is tokenized without an error. -/
def ofTokenize {lexer : Lexer} {text : String} {tokens : List Token}
    (h : lexer.tokenize text = .ok tokens) : Tokenized where
  lexer := lexer
  text := text
  tokens := tokens
  found := by
    intro k
    unfold Lexer.tokenize at h
    simp only at h
    split at h <;> rename_i hr <;> cases h
    have hk := Lexer.found_of_readAll (i := 0) hr (Nat.le_refl _) k
    rwa [Nat.zero_add] at hk

variable (x : Tokenized)

def count : Nat := x.tokens.length

/-- The cursor at a place. -/
def place (k : Nat) : Cursor := x.lexer.place x.text k

def offset (k : Nat) : Nat := (x.place k).position.offset

/-- The place from which a stream at `k` goes on once it has looked at what comes next. -/
def seen (k : Nat) : Nat := if k < x.count then k else x.count + 1

variable {x} {k j : Nat}

theorem le_seen (h : k ≤ x.count + 1) : k ≤ x.seen k := by
  unfold seen; split <;> omega

theorem seen_le : x.seen k ≤ x.count + 1 := by
  unfold seen; split <;> omega

theorem seen_of_lt (h : k < x.count) : x.seen k = k := if_pos h

variable (x) in
/-- A look leads to this place. -/
def Looked (k : Nat) : Prop := k ≤ x.count + 1 ∧ k ≠ x.count

theorem looked_seen : x.Looked (x.seen k) := by
  unfold Looked seen; split <;> omega

/-- Another look leads nowhere else. -/
theorem seen_of_looked (h : x.Looked k) : x.seen k = k := by
  have := h.1
  have := h.2
  unfold seen; split <;> omega

/-! ## Offsets -/

theorem reaches_succ_of_lt (h : k < x.count) :
    Cursor.Reaches 1 (x.place k) (x.place (k + 1)) := by
  refine x.lexer.reaches_pass_of_found ?_
  intro hf
  rw [place, x.found k, List.getElem?_eq_getElem h] at hf
  cases hf

theorem offset_le (h : j ≤ k) : x.offset j ≤ x.offset k :=
  (x.lexer.reaches_place x.text h).offset_le

/-- Behind a place from which a stream has looked every offset is greater. -/
theorem offset_lt (h : j < k) (hk : k ≤ x.count + 1) (hj : x.Looked j) :
    x.offset j < x.offset k := by
  have hstep : x.offset j + 1 ≤ x.offset (j + 1) :=
    (reaches_succ_of_lt (show j < x.count by have := hj.2; omega)).offset_le
  have := x.offset_le (show j + 1 ≤ k from h)
  omega

theorem offset_lt_iff (hk : k ≤ x.count + 1) (hj : x.Looked j) :
    x.offset j < x.offset k ↔ j < k := by
  constructor
  · intro h
    by_cases hle : k ≤ j
    · have := x.offset_le hle
      omega
    · omega
  · intro h
    exact offset_lt h hk hj

/-- There are at least as many characters left as tokens. -/
theorem count_le (k : Nat) : x.count ≤ k + (x.place k).rest.length := by
  induction h : x.count - k generalizing k with
  | zero => omega
  | succ m ih =>
    have hlen := (reaches_succ_of_lt (show k < x.count by omega)).length_le
    have := ih (k + 1) (by omega)
    omega

/-! ## Streams -/

/-- No reading leads on from the end of the text. -/
theorem place_of_count_lt (h : x.count < k) : x.place k = x.place (x.count + 1) := by
  have hnone : x.lexer.found (x.lexer.place x.text x.count) = .ok none := by
    rw [x.found, List.getElem?_eq_none (show x.tokens.length ≤ x.count from Nat.le_refl _)]
  have hend : (x.lexer.place x.text (x.count + 1)).atEnd = true := x.lexer.atEnd_pass hnone
  obtain ⟨m, rfl⟩ := Nat.exists_eq_add_of_lt h
  rw [Nat.add_right_comm]
  exact Lexer.place_add_of_atEnd hend m

variable {s : Stream x.lexer}

/-- A look shows the token at the place. -/
theorem peek_at (h : s.StandsAt (x.place k)) :
    ∃ s', peek s = .ok x.tokens[k]? s' ∧ s'.StandsAt (x.place (x.seen k)) := by
  rcases peek_cases h with ⟨t, s', hf, hp, hs⟩ | ⟨hf, hp⟩ | ⟨e, hf, -⟩ <;>
    rw [show x.place k = x.lexer.place x.text k from rfl, x.found k] at hf
  · injection hf with hf
    have hk : k < x.count := (List.getElem?_eq_some_iff.1 hf).1
    refine ⟨s', by rw [hp, hf], ?_⟩
    rw [seen_of_lt hk]
    exact hs.symm.standsAt (standsAt_holding (by rw [← hf]; exact x.found k))
  · injection hf with hf
    have hk : x.count ≤ k := List.getElem?_eq_none_iff.1 hf
    refine ⟨_, by rw [hp, hf], ?_⟩
    rw [seen, if_neg (by omega), ← place_of_count_lt (show x.count < k + 1 by omega)]
    exact standsAt_passing s (x.place k)
  · cases hf

/-- The token at the place is handed out, and the stream passes on. -/
theorem next_at (h : s.StandsAt (x.place k)) :
    ∃ s', next s = .ok x.tokens[k]? s' ∧ s'.StandsAt (x.place (k + 1)) := by
  obtain ⟨s', hp, -⟩ := peek_at h
  have hs := standsAt_next h
  rw [next_eq, hp] at hs ⊢
  exact ⟨_, rfl, hs⟩

theorem position_at (h : s.StandsAt (x.place k)) :
    ∃ p s', Stream.position s = .ok p s' ∧ s'.StandsAt (x.place (x.seen k)) := by
  obtain ⟨s', hp, hs⟩ := peek_at h
  rw [position_eq, hp]
  cases x.tokens[k]? <;> exact ⟨_, s', rfl, hs⟩

theorem atEnd_at (h : s.StandsAt (x.place k)) :
    ∃ s', Stream.atEnd s = .ok (decide (x.count ≤ k)) s' ∧ s'.StandsAt (x.place (x.seen k)) := by
  obtain ⟨s', hp, hs⟩ := peek_at h
  rw [atEnd_eq, hp]
  have hnone : x.tokens[k]?.isNone = decide (x.count ≤ k) := by
    rw [Bool.eq_iff_iff, Option.isNone_iff_eq_none, List.getElem?_eq_none_iff, decide_eq_true_iff]
    rfl
  rw [← hnone]
  exact ⟨s', rfl, hs⟩

theorem offset_at (h : s.StandsAt (x.place k)) : s.offset = x.offset k :=
  congrArg (·.position.offset) h.bookmark_eq

theorem text_place (k : Nat) : (x.place k).text = x.text.toList := x.lexer.text_place x.text k

theorem sound_place (k : Nat) : (x.place k).Sound := x.lexer.sound_place x.text k

/-- A stream returns to where the checkpoint was taken. -/
theorem returnTo_at {t : Stream x.lexer} (ht : t.StandsAt (x.place k))
    (hs : s.StandsAt (x.place j)) : (s.returnTo t.checkpoint).StandsAt (x.place k) :=
  standsAt_returnTo ht (sound_place k) (by rw [hs.text_eq, text_place, text_place])

theorem count_le_unread (h : s.StandsAt (x.place k)) : x.count ≤ k + s.unread := by
  have hu : s.unread = (x.place k).rest.length := by
    rw [unread, h.bookmark_eq, h.text_eq]
    exact congrArg List.length (sound_place k).dropBytes_byte
  rw [hu]
  exact count_le k

end Tokenized

end Descent
