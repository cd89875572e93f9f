import Descent.Proofs.Ending
import Descent.Proofs.Positions

/-!
# Behind text that does not lex

A look that meets text which holds no token fails, and leaves the stream behind that text: the error
has been given, and the next look goes on from there. So no error is kept. As every failure passes
over a character, looking again comes to a token or to the end of the text at last, and only a
return to where the stream stood before brings the error back.

* `Stream.Reachable.passes_of_error`: where a failed look leads.
* `Stream.Reachable.looks_succeed`: looking again and again comes to an answer.
* `Stream.Reachable.error_ne`: where no adjustment moves tokens, no two errors in a row are alike.
* `error_passes`: all of this for every way to ask for the next token.
-/
namespace Descent

open Descent.Stream

/-! ## Where errors are reported -/

namespace Lexer

variable {lexer : Lexer}

theorem reaches_of_readHere_error {c d : Cursor} {e : ReadError}
    (h : lexer.readHere c = .error e d) : Cursor.Reaches 1 c d := by
  have hmoved := moved_readWith lexer.forms c
  unfold readHere at h
  split at h
  · cases h
  · next hend =>
    split at h <;> rename_i hread <;> rw [hread] at hmoved
    · cases h
    · obtain rfl := hmoved
      have hstray := lexer.outcome_readStray (by simpa using hend)
      rw [h] at hstray
      exact hstray
    · cases h
      exact hmoved

/-- An error is reported from the cursor on, and before the place where it leaves the cursor if
anything is left there. -/
theorem position_of_found_error (hkeeps : lexer.KeepsSpans) {c : Cursor} {e : ReadError}
    (h : lexer.found c = .error e) :
    c.position.offset ≤ e.position.offset ∧
      (e.position.offset < (lexer.pass c).position.offset ∨ (lexer.pass c).atEnd = true) := by
  unfold found at h
  unfold pass
  cases hread : lexer.read c with
  | ok l d => rw [hread] at h; cases h
  | error e' d =>
    rw [hread] at h
    cases h
    obtain ⟨c', hskips, hhere, -⟩ := lexer.skips_read c
    have hfail := hhere.symm.trans hread
    have hbefore := hskips.reaches.offset_le
    have hbehind := (reaches_of_readHere_error hfail).offset_le
    rcases position_of_readHere hkeeps hfail with hp | ⟨hp, hend⟩
    · rw [hp]
      exact ⟨hbefore, Or.inl hbehind⟩
    · rw [hp]
      exact ⟨by omega, Or.inr hend⟩

end Lexer

namespace Stream

variable {lexer : Lexer} {text : String} {s s' t : Stream lexer} {e : ReadError}

/-- The stream after `n` looks in a row, whether they fail or not. -/
def afterLooks : Nat → Stream lexer → Stream lexer
  | 0, s => s
  | n + 1, s => afterLooks n (stateOf (peek s))

/-! ## Ways to ask -/

theorem next_eq_error_iff : next s = .error e s' ↔ peek s = .error e s' := by
  rw [next_eq]
  cases peek s <;> simp

theorem atEnd_eq_error_iff : atEnd s = .error e s' ↔ peek s = .error e s' := by
  rw [atEnd_eq]
  cases peek s <;> simp

theorem position_eq_error_iff : Stream.position s = .error e s' ↔ peek s = .error e s' := by
  rw [position_eq]
  cases peek s with
  | error => simp
  | ok found => cases found <;> simp

/-! ## Where a failure leads -/

theorem StandsAt.passing_of_error {c : Cursor} (hc : s.StandsAt c) (h : peek s = .error e s') :
    lexer.found c = .error e ∧ s' = s.passing c := by
  rcases peek_cases hc with ⟨u, s₁, -, hp, -⟩ | ⟨-, hp⟩ | ⟨e', hf, hp⟩ <;> rw [h] at hp <;> cases hp
  exact ⟨hf, rfl⟩

/-- Where nothing can be read a look fails, whatever the stream has looked at before. -/
theorem StandsAt.peek_of_error {c : Cursor} (hc : s.StandsAt c) (h : lexer.found c = .error e) :
    ∃ s', peek s = .error e s' := by
  rcases peek_cases hc with ⟨u, s₁, hf, -⟩ | ⟨hf, -⟩ | ⟨e', hf, hp⟩ <;> rw [h] at hf <;> cases hf
  exact ⟨_, hp⟩

/-- A failed look leaves the stream behind the text that it could not read. -/
theorem Reachable.passes_of_error (hs : s.Reachable text) (h : peek s = .error e s') :
    s.offset < s'.offset ∧ s'.StandsAt ((Cursor.ofString text).skip s'.offset) := by
  have hs' : s'.Reachable text := by
    have hlook := hs.look
    rwa [h] at hlook
  refine ⟨?_, hs'.standsAt_offset.2⟩
  obtain ⟨k, hk⟩ := hs.standsAt_place
  obtain ⟨hf, rfl⟩ := hk.passing_of_error h
  have hreach := lexer.reaches_pass_of_found (c := lexer.place text k) (by rw [hf]; simp)
  rw [hk.offset_eq, (standsAt_passing s _).offset_eq]
  exact hreach.offset_le

/-- However often looks fail, after at most as many as there are characters left one succeeds. -/
theorem Reachable.looks_succeed (hs : s.Reachable text) :
    ∃ n, n ≤ s.unread ∧ ∃ found s', peek (s.afterLooks n) = .ok found s' := by
  induction hn : s.unread using Nat.strongRecOn generalizing s with
  | ind unread ih =>
    cases hp : peek s with
    | ok found s' => exact ⟨0, Nat.zero_le _, found, s', hp⟩
    | error e s' =>
      have hs' : s'.Reachable text := by
        have hlook := hs.look
        rwa [hp] at hlook
      have hlt := (hs.passes_of_error hp).1
      have hsum := hs.offset_add_unread
      have hsum' := hs'.offset_add_unread
      obtain ⟨n, hle, found, s'', hok⟩ := ih s'.unread (by omega) hs' rfl
      refine ⟨n + 1, by omega, found, s'', ?_⟩
      rw [afterLooks, hp]
      exact hok

/-- Where no adjustment moves tokens, errors tell where the text does not lex, so the next look does
not give the same error. -/
theorem Reachable.error_ne (hkeeps : lexer.KeepsSpans) (hs : s.Reachable text)
    (h : peek s = .error e s') : peek s' ≠ .error e t := by
  intro h'
  obtain ⟨k, hk⟩ := hs.standsAt_place
  obtain ⟨hf, rfl⟩ := hk.passing_of_error h
  obtain ⟨hf', -⟩ := (standsAt_passing s (lexer.place text k)).passing_of_error h'
  -- The second error would lie behind the first one, but for the end of the text.
  have hfirst := (Lexer.position_of_found_error hkeeps hf).2
  have hsecond := (Lexer.position_of_found_error hkeeps hf').1
  rcases hfirst with hlt | hend
  · omega
  · rw [lexer.found_of_atEnd hend] at hf'
    cases hf'

end Stream

/-- Whichever way the next token is asked for, a failure leaves the stream in the same state, behind
the text that does not lex. It is not kept there: among as many looks as there are characters left
one succeeds, and where no adjustment moves tokens not even the next look gives the same error. A
return to where the stream stood before does. -/
theorem error_passes {lexer : Lexer} {text : String} {s s' : Stream lexer} {e : ReadError}
    (hs : s.Reachable text)
    (h : peek s = .error e s' ∨ next s = .error e s' ∨ Stream.atEnd s = .error e s' ∨
      Stream.position s = .error e s') :
    (peek s = .error e s' ∧ next s = .error e s' ∧ Stream.atEnd s = .error e s' ∧
      Stream.position s = .error e s') ∧
    (s.offset < s'.offset ∧ s'.StandsAt ((Cursor.ofString text).skip s'.offset)) ∧
    (∃ n, n ≤ s'.unread ∧ ∃ found t, peek (s'.afterLooks n) = .ok found t) ∧
    (lexer.KeepsSpans → ∀ t, peek s' ≠ .error e t) ∧
    ∃ t, peek (s'.returnTo s.checkpoint) = .error e t := by
  have hp : peek s = .error e s' := by
    rcases h with h | h | h | h
    · exact h
    · exact next_eq_error_iff.1 h
    · exact atEnd_eq_error_iff.1 h
    · exact position_eq_error_iff.1 h
  have hs' : s'.Reachable text := by
    have hlook := hs.look
    rwa [hp] at hlook
  refine ⟨⟨hp, next_eq_error_iff.2 hp, atEnd_eq_error_iff.2 hp, position_eq_error_iff.2 hp⟩,
    hs.passes_of_error hp, hs'.looks_succeed, fun hkeeps t => hs.error_ne hkeeps hp, ?_⟩
  obtain ⟨k, hk⟩ := hs.standsAt_place
  obtain ⟨j, hj⟩ := hs'.standsAt_place
  have hback : (s'.returnTo s.checkpoint).StandsAt (lexer.place text k) :=
    standsAt_returnTo hk (lexer.sound_place text k)
      (by rw [hj.text_eq, lexer.text_place, lexer.text_place])
  exact hback.peek_of_error (hk.passing_of_error hp).1

/-- Two characters that begin no token are reported one after the other, and then comes the word
behind them. -/
theorem error_passes_twice :
    let s : Stream wordsAndBlanks := .ofString "??a"
    ∃ s' t, next s = .error (.unexpected '?' .start) s' ∧ s.offset < s'.offset ∧
      peek s' = .error (.unexpected '?' ⟨1, 1, 2⟩) t ∧
      (∀ t, peek s' ≠ .error (.unexpected '?' .start) t) ∧
      ∃ t', peek (s'.returnTo s.checkpoint) = .error (.unexpected '?' .start) t' := by
  intro s
  obtain ⟨s', t, hn, hp⟩ : ∃ s' t, next s = .error (.unexpected '?' .start) s' ∧
      peek s' = .error (.unexpected '?' ⟨1, 1, 2⟩) t := ⟨_, _, rfl, rfl⟩
  have hkeeps : wordsAndBlanks.KeepsSpans :=
    Lexer.keepsSpans_of_no_adjustments (by simp [wordsAndBlanks])
  have hs : s.Reachable "??a" := .start
  obtain ⟨-, ⟨hlt, -⟩, -, hother, hback⟩ := error_passes hs (Or.inr (Or.inl hn))
  exact ⟨s', t, hn, hlt, hp, hother hkeeps, hback⟩

/-- Behind a character that begins no token the stream is not where it was, the next look gives no
error, and the word that lies behind is handed out. -/
theorem error_not_kept :
    ¬ (∀ (lexer : Lexer) (text : String) (s s' : Stream lexer) (e : ReadError), s.Reachable text →
        peek s = .error e s' → s'.checkpoint = s.checkpoint ∧ ∃ t, peek s' = .error e t) ∧
    ∃ e s' word t, peek (.ofString "?a" : Stream wordsAndBlanks) = .error e s' ∧
      s'.offset = 1 ∧ next s' = .ok (some word) t := by
  obtain ⟨e, s', word, t, hp, hoffset, hn, hok⟩ : ∃ e s' word t,
      peek (.ofString "?a" : Stream wordsAndBlanks) = .error e s' ∧ s'.offset = 1 ∧
        next s' = .ok (some word) t ∧ ∃ t', peek s' = .ok (some word) t' :=
    ⟨_, _, _, _, rfl, rfl, rfl, _, rfl⟩
  refine ⟨?_, e, s', word, t, hp, hoffset, hn⟩
  intro h
  obtain ⟨-, t', hkept⟩ := h wordsAndBlanks "?a" _ s' e .start hp
  obtain ⟨t'', hok⟩ := hok
  rw [hok] at hkept
  cases hkept

end Descent
