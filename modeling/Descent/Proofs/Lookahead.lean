import Descent.Proofs.Reading
import Descent.Run.Stream

/-!
# Where a stream stands

A stream that looked ahead has moved its cursor behind the token it will hand out next, and one that
did not look has its cursor before it. `StandsAt s c` names the cursor `c` before the next token in
either case: reading from `c` again gives what the stream holds. Every state that a stream over a
text can come to stands at one of the cursors that the lexer comes by when it reads the text from
start to end (`Lexer.place`).

* `peek_cases`: what looking at the next token gives and where the stream then stands.
* `standsAt_next`, `standsAt_returnTo`: the other operations.
* `Reachable.standsAt_place`: the invariant over every order of operations.
-/
namespace Descent

/-- The state that an operation ends in, whether it fails or not. -/
def stateOf {ε σ α : Type} : EStateM.Result ε σ α → σ
  | .ok _ s | .error _ s => s

namespace Lexer

variable (lexer : Lexer)

/-- The token that comes next, `none` at the end of the text. -/
def found (c : Cursor) : Except ReadError (Option Token) :=
  match lexer.read c with
  | .ok l _ => .ok l.token?
  | .error e _ => .error e

/-- The cursor behind what comes next, or where the reading of it failed. -/
def pass (c : Cursor) : Cursor := stateOf (lexer.read c)

theorem reaches_pass (c : Cursor) : Cursor.Reaches 0 c (lexer.pass c) := by
  have h := lexer.outcome_read c
  unfold pass
  unfold Outcome at h
  split at h <;> rename_i hr <;> rw [hr]
  · exact h.1
  · exact h.mono (Nat.zero_le 1)
  · exact h.mono (Nat.zero_le 1)
  · exact h.mono (Nat.zero_le 1)

/-- Only at the end of the text does reading not have to move. -/
theorem reaches_pass_of_found {c : Cursor} (hf : lexer.found c ≠ .ok none) :
    Cursor.Reaches 1 c (lexer.pass c) := by
  have h := lexer.outcome_read c
  unfold found at hf
  unfold pass
  unfold Outcome at h
  split at h <;> rename_i hr <;> rw [hr]
  · rw [hr] at hf; exact absurd rfl hf
  · exact h
  · exact h
  · exact h

theorem atEnd_pass {c : Cursor} (hf : lexer.found c = .ok none) : (lexer.pass c).atEnd = true := by
  have h := lexer.outcome_read c
  unfold found at hf
  unfold pass
  unfold Outcome at h
  split at h <;> rename_i hr <;> rw [hr] at hf ⊢
  · exact h.2
  · cases hf
  · cases hf
  · cases hf

theorem found_of_atEnd {c : Cursor} (h : c.atEnd = true) : lexer.found c = .ok none := by
  rw [found, lexer.read_of_atEnd h]; rfl

theorem pass_of_atEnd {c : Cursor} (h : c.atEnd = true) : lexer.pass c = c := by
  rw [pass, lexer.read_of_atEnd h]; rfl

theorem text_pass (c : Cursor) : (lexer.pass c).text = c.text := (lexer.reaches_pass c).text_eq

/-- Where the cursor is after `k` readings of a text from its start. -/
def place (text : String) : Nat → Cursor
  | 0 => .ofString text
  | k + 1 => lexer.pass (place text k)

/-- Later readings of a text lead further. -/
theorem reaches_place (text : String) {j k : Nat} (h : j ≤ k) :
    Cursor.Reaches 0 (lexer.place text j) (lexer.place text k) := by
  induction h with
  | refl => exact Cursor.reaches_refl _
  | step _ ih => exact ih.trans (lexer.reaches_pass _)

theorem sound_place (text : String) (k : Nat) : (lexer.place text k).Sound := by
  induction k with
  | zero => exact Cursor.sound_ofString text
  | succ k ih => exact ih.reaches (lexer.reaches_pass _)

theorem text_place (text : String) (k : Nat) : (lexer.place text k).text = text.toList := by
  induction k with
  | zero => rfl
  | succ k ih => rw [place, text_pass, ih]

end Lexer

namespace Stream

variable {lexer : Lexer}

/-! ## Standing before the next token -/

/-- `c` is the cursor from which the next token is read, or was read if the stream looked ahead. -/
def StandsAt (s : Stream lexer) (c : Cursor) : Prop :=
  match s.buffered with
  | none => s.cursor = c
  | some b => b.before = c.bookmark ∧ lexer.found c = .ok (some b.token) ∧ s.cursor = lexer.pass c

theorem standsAt_cursor {s : Stream lexer} (h : s.buffered = none) : s.StandsAt s.cursor := by
  rw [StandsAt, h]

theorem standsAt_ofString (text : String) :
    (Stream.ofString text : Stream lexer).StandsAt (.ofString text) := rfl

theorem StandsAt.bookmark_eq {s : Stream lexer} {c : Cursor} (h : s.StandsAt c) :
    s.bookmark = c.bookmark := by
  unfold StandsAt at h
  unfold bookmark
  split at h <;> rename_i hb
  · rw [hb]; exact congrArg Cursor.bookmark h
  · rw [hb]; exact h.1

theorem StandsAt.text_eq {s : Stream lexer} {c : Cursor} (h : s.StandsAt c) :
    s.cursor.text = c.text := by
  unfold StandsAt at h
  split at h
  · rw [h]
  · rw [h.2.2, lexer.text_pass]

/-- The stream at another depth of nesting. -/
def atDepth (s : Stream lexer) (d : Nat) : Stream lexer := { s with depth := d }

theorem StandsAt.atDepth {s : Stream lexer} {c : Cursor} (h : s.StandsAt c) (d : Nat) :
    (s.atDepth d).StandsAt c := h

theorem StandsAt.record {s : Stream lexer} {c : Cursor} (h : s.StandsAt c) (e : Event) :
    (s.record e).StandsAt c := h

/-- A stream that returns to the checkpoint of another one over the same text stands where that
one stood. -/
theorem standsAt_returnTo {s t : Stream lexer} {c : Cursor} (h : t.StandsAt c) (hc : c.Sound)
    (ht : s.cursor.text = c.text) : (s.returnTo t.checkpoint).StandsAt c := by
  show s.cursor.goTo t.bookmark = c
  rw [h.bookmark_eq, hc.goTo_bookmark ht]

/-- All but the journal, which nothing reads. -/
structure Same (s t : Stream lexer) : Prop where
  cursor : s.cursor = t.cursor
  buffered : s.buffered = t.buffered
  lastEnd : s.lastEnd = t.lastEnd
  depth : s.depth = t.depth

theorem Same.refl (s : Stream lexer) : Same s s := ⟨rfl, rfl, rfl, rfl⟩

theorem Same.symm {s t : Stream lexer} (h : Same s t) : Same t s :=
  ⟨h.cursor.symm, h.buffered.symm, h.lastEnd.symm, h.depth.symm⟩

theorem Same.trans {s t u : Stream lexer} (h : Same s t) (k : Same t u) : Same s u :=
  ⟨h.cursor.trans k.cursor, h.buffered.trans k.buffered, h.lastEnd.trans k.lastEnd,
    h.depth.trans k.depth⟩

theorem Same.standsAt {s t : Stream lexer} {c : Cursor} (h : Same s t) (hs : s.StandsAt c) :
    t.StandsAt c := by
  unfold StandsAt at *
  rwa [← h.buffered, ← h.cursor]

/-! ## Looking at the next token -/

/-- The stream `s`, standing at `c`, once it has looked at the token `t`. -/
def holding (s : Stream lexer) (c : Cursor) (t : Token) : Stream lexer :=
  { s with cursor := lexer.pass c, buffered := some ⟨t, c.bookmark⟩ }

/-- The stream `s`, standing at `c`, once it has looked in vain. -/
def passing (s : Stream lexer) (c : Cursor) : Stream lexer :=
  { s with cursor := lexer.pass c, buffered := none }

theorem standsAt_holding {s : Stream lexer} {c : Cursor} {t : Token}
    (hf : lexer.found c = .ok (some t)) : (s.holding c t).StandsAt c := ⟨rfl, hf, rfl⟩

theorem standsAt_passing (s : Stream lexer) (c : Cursor) : (s.passing c).StandsAt (lexer.pass c) :=
  rfl

/-- Looking shows what is found where the stream stands. A token is kept, and the stream stays where
it is; at the end of the text, and where no token can be read, the stream passes on. -/
theorem peek_cases {s : Stream lexer} {c : Cursor} (h : s.StandsAt c) :
    (∃ t s', lexer.found c = .ok (some t) ∧ peek s = .ok (some t) s' ∧ Same s' (s.holding c t)) ∨
    (lexer.found c = .ok none ∧ peek s = .ok none (s.passing c)) ∨
    (∃ e, lexer.found c = .error e ∧ peek s = .error e (s.passing c)) := by
  unfold StandsAt at h
  unfold peek
  split at h <;> rename_i hb <;> rw [hb]
  · subst h
    simp only [Lexer.found, holding, passing, Lexer.pass]
    cases hr : lexer.read s.cursor with
    | error e d => exact Or.inr (Or.inr ⟨e, rfl, by rw [← hb]; rfl⟩)
    | ok l d =>
      cases l with
      | finished => exact Or.inr (Or.inl ⟨rfl, by rw [← hb]; rfl⟩)
      | token t => exact Or.inl ⟨t, _, rfl, rfl, ⟨rfl, rfl, rfl, rfl⟩⟩
      | stray t => exact Or.inl ⟨t, _, rfl, rfl, ⟨rfl, rfl, rfl, rfl⟩⟩
  · next b =>
    obtain ⟨hbm, hf, hc⟩ := h
    exact Or.inl ⟨b.token, s, hf, rfl, ⟨hc, by rw [hb, holding, ← hbm], rfl, rfl⟩⟩

theorem next_eq (s : Stream lexer) :
    next s =
      match peek s with
      | .ok t s' => .ok t s'.handOut
      | .error e s' => .error e s' := by
  simp only [next, bind_apply]
  cases peek s <;> rfl

theorem atEnd_eq (s : Stream lexer) :
    atEnd s =
      match peek s with
      | .ok t s' => .ok t.isNone s'
      | .error e s' => .error e s' := by
  simp only [atEnd, bind_apply]
  cases peek s <;> rfl

theorem position_eq (s : Stream lexer) :
    position s =
      match peek s with
      | .ok (some t) s' => .ok t.start s'
      | .ok none s' => .ok s'.cursor.position s'
      | .error e s' => .error e s' := by
  simp only [position, bind_apply]
  cases peek s with
  | error e s' => rfl
  | ok t s' => cases t <;> rfl

theorem stateOf_atEnd (s : Stream lexer) : stateOf (atEnd s) = stateOf (peek s) := by
  rw [atEnd_eq]; cases peek s <;> rfl

theorem stateOf_position (s : Stream lexer) : stateOf (position s) = stateOf (peek s) := by
  rw [position_eq]; split <;> rename_i h <;> rw [h] <;> rfl

/-- Looking leaves alone what is no part of reading. -/
theorem peek_frame (s : Stream lexer) :
    (stateOf (peek s)).lastEnd = s.lastEnd ∧ (stateOf (peek s)).depth = s.depth := by
  unfold peek
  split
  · exact ⟨rfl, rfl⟩
  · split <;> exact ⟨rfl, rfl⟩

/-- A look that succeeded can be repeated, and nothing moves. -/
theorem peek_again {s s' : Stream lexer} {found : Option Token} (h : peek s = .ok found s') :
    peek s' = .ok found s' := by
  cases found with
  | some t => exact peek_peek h
  | none =>
    cases hb : s.buffered with
    | some b => rw [peek_of_buffered hb] at h; cases h
    | none =>
      have hat := standsAt_cursor hb
      rcases peek_cases hat with ⟨t, s₁, -, hp, -⟩ | ⟨hf, hp⟩ | ⟨e, -, hp⟩ <;>
        rw [h] at hp <;> cases hp
      -- The first look came to the end of the text, where the second one stays.
      have hend := lexer.atEnd_pass hf
      rcases peek_cases (standsAt_passing s s.cursor) with ⟨t, s₁, hf₁, -⟩ | ⟨-, hp₁⟩ | ⟨e, hf₁, -⟩
      · rw [lexer.found_of_atEnd hend] at hf₁; cases hf₁
      · rw [hp₁, passing, lexer.pass_of_atEnd hend]; rfl
      · rw [lexer.found_of_atEnd hend] at hf₁; cases hf₁

/-- The position is that of the token that a look finds, which is found again. -/
theorem position_cases {s s' : Stream lexer} {p : Position} (h : position s = .ok p s') :
    (∃ found, peek s = .ok found s') ∧ position s' = .ok p s' := by
  rw [position_eq] at h
  rw [position_eq]
  cases hp : peek s with
  | error e t => rw [hp] at h; cases h
  | ok found t =>
    rw [hp] at h
    cases found <;> cases h <;> rw [peek_again hp] <;> exact ⟨⟨_, rfl⟩, rfl⟩

/-- Where a look succeeds there is a position. -/
theorem exists_position {s s' : Stream lexer} {found : Option Token} (h : peek s = .ok found s') :
    ∃ p, position s = .ok p s' := by
  rw [position_eq, h]
  cases found <;> exact ⟨_, rfl⟩

theorem handOut_of_holding {s s' : Stream lexer} {c : Cursor} {t : Token}
    (h : Same s' (s.holding c t)) :
    Same s'.handOut { s.passing c with lastEnd := t.span.stop } := by
  have hb : s'.buffered = some ⟨t, c.bookmark⟩ := h.buffered
  unfold handOut
  rw [hb]
  exact ⟨h.cursor, rfl, rfl, h.depth⟩

/-- Handing out a token passes on, and so does asking in vain. -/
theorem standsAt_next {s : Stream lexer} {c : Cursor} (h : s.StandsAt c) :
    (stateOf (next s)).StandsAt (lexer.pass c) := by
  rw [next_eq]
  rcases peek_cases h with ⟨t, s', -, hp, hs⟩ | ⟨-, hp⟩ | ⟨e, -, hp⟩ <;> rw [hp]
  · exact (handOut_of_holding hs).symm.standsAt (standsAt_passing s c)
  · exact standsAt_passing s c
  · exact standsAt_passing s c

theorem standsAt_peek {s : Stream lexer} {c : Cursor} (h : s.StandsAt c) :
    (stateOf (peek s)).StandsAt c ∨ (stateOf (peek s)).StandsAt (lexer.pass c) := by
  rcases peek_cases h with ⟨t, s', hf, hp, hs⟩ | ⟨-, hp⟩ | ⟨e, -, hp⟩ <;> rw [hp]
  · exact Or.inl (hs.symm.standsAt (standsAt_holding hf))
  · exact Or.inr (standsAt_passing s c)
  · exact Or.inr (standsAt_passing s c)

/-! ## Every state of a stream -/

/-- The states of a stream over a text: what its operations lead to in any order, at any depth of
nesting and with anything in the journal. A return leads to a checkpoint that was taken in some
state of the stream. -/
inductive Reachable (text : String) : Stream lexer → Prop
  | start : Reachable text (.ofString text)
  | look {s : Stream lexer} (h : Reachable text s) : Reachable text (stateOf (peek s))
  | take {s : Stream lexer} (h : Reachable text s) : Reachable text (stateOf (next s))
  | back {s t : Stream lexer} (hs : Reachable text s) (ht : Reachable text t) :
    Reachable text (s.returnTo t.checkpoint)
  | nest {s : Stream lexer} (h : Reachable text s) (d : Nat) : Reachable text (s.atDepth d)
  | note {s : Stream lexer} (h : Reachable text s) (e : Event) : Reachable text (s.record e)

theorem Reachable.atEnd {text : String} {s : Stream lexer} (h : s.Reachable text) :
    (stateOf (s.atEnd)).Reachable text := by
  rw [stateOf_atEnd]; exact h.look

theorem Reachable.position {text : String} {s : Stream lexer} (h : s.Reachable text) :
    (stateOf (s.position)).Reachable text := by
  rw [stateOf_position]; exact h.look

/-- Wherever a stream comes to, it stands at a place that the lexer passes when it reads the text
from start to end. -/
theorem Reachable.standsAt_place {text : String} {s : Stream lexer} (h : s.Reachable text) :
    ∃ k, s.StandsAt (lexer.place text k) := by
  induction h with
  | start => exact ⟨0, standsAt_ofString text⟩
  | look _ ih =>
    obtain ⟨k, hk⟩ := ih
    rcases standsAt_peek hk with h | h
    · exact ⟨k, h⟩
    · exact ⟨k + 1, h⟩
  | take _ ih =>
    obtain ⟨k, hk⟩ := ih
    exact ⟨k + 1, standsAt_next hk⟩
  | back _ _ ihs iht =>
    obtain ⟨j, hj⟩ := ihs
    obtain ⟨k, hk⟩ := iht
    refine ⟨k, standsAt_returnTo hk (lexer.sound_place text k) ?_⟩
    rw [hj.text_eq, lexer.text_place, lexer.text_place]
  | nest _ d ih =>
    obtain ⟨k, hk⟩ := ih
    exact ⟨k, hk.atDepth d⟩
  | note _ e ih =>
    obtain ⟨k, hk⟩ := ih
    exact ⟨k, hk.record e⟩

end Stream

end Descent
