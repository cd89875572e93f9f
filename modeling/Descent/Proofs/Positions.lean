import Descent.Proofs.Places
import Descent.Proofs.Skipped

/-!
# Positions that are true

A position is true of a text if it counts the characters, the lines and the characters of the last
line before it. Cursors count as they read, so where no adjustment moves tokens every position that
comes from the lexer is true, also where no token can be read.

* `Cursor.Sound.trueIn`: what a cursor has counted.
* `Lexer.position_of_readWith`: where errors are reported.
* `Lexer.PlaceOf.trueIn`: all positions that come from the lexer.
* `Lexer.FoundAt.offsets`, `Lexer.FoundAt.stop_le`: tokens are not empty and do not overlap.
-/
namespace Descent

open Descent.Stream

/-! ## Counting -/

/-- The position counts what lies before it in the text. -/
structure Position.TrueIn (text : List Char) (p : Position) : Prop where
  offset_le : p.offset ≤ text.length
  line_eq : p.line = 1 + (text.take p.offset).count '\n'
  /-- The characters behind the last newline before it. -/
  column_eq : p.column = 1 + ((text.take p.offset).reverse.takeWhile (· != '\n')).length

namespace Position

theorem after_reverse_cons (p : Position) (c : Char) (cs : List Char) :
    p.after (c :: cs).reverse = (p.after cs.reverse).step c := by
  rw [List.reverse_cons, after_append]
  rfl

theorem line_after (cs : List Char) : (start.after cs).line = 1 + cs.count '\n' := by
  rw [← List.reverse_reverse cs, List.count_reverse]
  induction cs.reverse with
  | nil => rfl
  | cons c cs ih =>
    rw [after_reverse_cons, step, List.count_cons]
    by_cases hc : c = '\n'
    · simp [hc, ih, Nat.add_assoc]
    · simp [hc, ih]

theorem column_after (cs : List Char) :
    (start.after cs).column = 1 + (cs.reverse.takeWhile (· != '\n')).length := by
  rw [← List.reverse_reverse cs, List.reverse_reverse cs.reverse]
  induction cs.reverse with
  | nil => rfl
  | cons c cs ih =>
    rw [after_reverse_cons, step, List.takeWhile_cons]
    by_cases hc : c = '\n'
    · simp [hc]
    · simp [hc, ih, Nat.add_comm]

/-- What is counted up to here is true of the text. -/
theorem trueIn_after (behind rest : List Char) :
    (start.after behind).TrueIn (behind ++ rest) := by
  have hoffset : (start.after behind).offset = behind.length := by simp [start]
  have htake : (behind ++ rest).take (start.after behind).offset = behind := by
    rw [hoffset, List.take_left]
  refine ⟨?_, ?_, ?_⟩
  · rw [hoffset, List.length_append]
    exact Nat.le_add_right _ _
  · rw [htake, line_after]
  · rw [htake, column_after]

end Position

theorem Cursor.Sound.trueIn {c : Cursor} (h : c.Sound) : c.position.TrueIn c.text := by
  obtain ⟨behind, ht, -, hp⟩ := h
  rw [hp, ht]
  exact Position.trueIn_after behind c.rest

/-! ## Positions of errors -/

theorem Adjustment.position_of_applyAll {adjustments : List Adjustment}
    (h : ∀ a ∈ adjustments, a.KeepsSpan) {t : Token} {e : ReadError}
    (he : applyAll adjustments t = .error e) : e.position = t.start := by
  induction adjustments generalizing t with
  | nil => cases he
  | cons a rest ih =>
    rw [List.forall_mem_cons] at h
    rw [applyAll, List.foldlM_cons] at he
    cases ha : a.apply t with
    | ok u =>
      rw [ha] at he
      exact (ih h.2 he).trans (congrArg Span.start (h.1.span_eq ha))
    | error e' =>
      rw [ha] at he
      cases he
      -- Only a number can fail.
      cases a <;> simp only [apply] at ha
      · split at ha
        · cases ha
        · split at ha <;> cases ha
          rfl
      · split at ha <;> cases ha
      · split at ha <;> cases ha
      · cases ha

/-- A recognizer fails only at the end of the text, and reports that. -/
theorem Recognizer.position_of_read {r : Recognizer} {c d : Cursor} {e : ReadError}
    (h : r.read c = .error e d) : e.position = d.position ∧ d.atEnd = true := by
  cases r <;> simp only [read] at h
  · split at h
    · next c' _ =>
      simp only [Functor.map, EStateM.map, Cursor.takeUntil] at h
      split at h
      · cases h
      · next hr =>
        split at hr <;> cases hr
        cases h
        exact ⟨rfl, by simp [Cursor.atEnd]⟩
    · cases h
  · split at h
    · split at h <;> cases h
    · cases h
  · split at h
    · split at h <;> cases h
    · cases h
  · split at h <;> cases h

namespace Lexer

variable {lexer : Lexer} {text : String}

theorem position_of_formReadWith {form : TokenForm} (hform : ∀ a ∈ form.adjustments, a.KeepsSpan)
    {recognizers : List Recognizer} {c d : Cursor} {e : ReadError}
    (h : form.readWith recognizers c = .error e d) :
    e.position = c.position ∨ e.position = d.position ∧ d.atEnd = true := by
  induction recognizers with
  | nil => cases h
  | cons r rest ih =>
    rw [TokenForm.readWith_cons] at h
    have hm := r.moved_read c
    cases hr : r.read c with
    | error e' d' =>
      rw [hr] at h
      cases h
      exact Or.inr (Recognizer.position_of_read hr)
    | ok found d' =>
      rw [hr] at h hm
      cases found with
      | none =>
        obtain rfl : d' = c := hm
        exact ih h
      | some read =>
        simp only at h
        split at h <;> cases h
        next ht => exact Or.inl (Adjustment.position_of_applyAll hform ht)

/-- What fails in a form is reported where it began, or at the end of the text. -/
theorem position_of_readWith {forms : List TokenForm}
    (hforms : ∀ form ∈ forms, ∀ a ∈ form.adjustments, a.KeepsSpan) {c d : Cursor} {e : ReadError}
    (h : readWith forms c = .error e d) :
    e.position = c.position ∨ e.position = d.position ∧ d.atEnd = true := by
  induction forms with
  | nil => cases h
  | cons form rest ih =>
    rw [List.forall_mem_cons] at hforms
    simp only [readWith, bind_apply] at h
    have hm : Cursor.Moved c (form.read c) := form.moved_readWith _ c
    cases hr : form.read c with
    | error e' d' =>
      rw [hr] at h
      cases h
      exact position_of_formReadWith hforms.1 hr
    | ok found d' =>
      rw [hr] at h hm
      cases found with
      | none =>
        obtain rfl : d' = c := hm
        exact ih hforms.2 h
      | some u => cases h

theorem position_of_readHere (hkeeps : lexer.KeepsSpans) {c d : Cursor} {e : ReadError}
    (h : lexer.readHere c = .error e d) :
    e.position = c.position ∨ e.position = d.position ∧ d.atEnd = true := by
  have hm := moved_readWith lexer.forms c
  unfold readHere at h
  split at h
  · cases h
  · split at h <;> rename_i hread <;> rw [hread] at hm
    · cases h
    · obtain rfl := hm
      unfold readStray at h
      split at h
      · cases h
      · simp only at h
        split at h <;> cases h
        exact Or.inl rfl
    · cases h
      exact position_of_readWith hkeeps hread

/-! ## Positions from the lexer -/

/-- A token covers what was read for it between two places. -/
theorem FoundAt.span_eq (hkeeps : lexer.KeepsSpans) {k : Nat} {t : Token}
    (h : lexer.FoundAt text k t) :
    ∃ e, Cursor.Reaches 0 (lexer.place text k) e ∧
      Cursor.Reaches 1 e (lexer.place text (k + 1)) ∧
      t.span = ⟨e.position, (lexer.place text (k + 1)).position⟩ := by
  unfold FoundAt found at h
  rw [place, pass]
  cases hread : lexer.read (lexer.place text k) with
  | error e d => rw [hread] at h; cases h
  | ok l d =>
    rw [hread] at h
    exact span_of_read hkeeps hread (Except.ok.inj h)

theorem FoundAt.unique {k : Nat} {t u : Token} (ht : lexer.FoundAt text k t)
    (hu : lexer.FoundAt text k u) : t = u := by
  cases ht.symm.trans hu
  rfl

/-! ### Tokens in a row -/

section

variable (hkeeps : lexer.KeepsSpans)

include hkeeps

/-- A token starts behind the place from which it is read, and stops at the next one. -/
theorem FoundAt.offsets {k : Nat} {t : Token} (h : lexer.FoundAt text k t) :
    (lexer.place text k).position.offset ≤ t.start.offset ∧
      t.span.stop.offset = (lexer.place text (k + 1)).position.offset ∧
      t.start.offset < t.span.stop.offset := by
  obtain ⟨e, hbefore, hbehind, hspan⟩ := h.span_eq hkeeps
  have hstart := hbefore.offset_le
  have hstop := hbehind.offset_le
  rw [Token.start, hspan]
  exact ⟨hstart, rfl, hstop⟩

/-- A token stops before a later one starts. -/
theorem FoundAt.stop_le {j k : Nat} {t u : Token} (ht : lexer.FoundAt text j t)
    (hu : lexer.FoundAt text k u) (hjk : j < k) : t.span.stop.offset ≤ u.start.offset := by
  have hplaces := (lexer.reaches_place text (show j + 1 ≤ k from hjk)).offset_le
  have hstop := (ht.offsets hkeeps).2.1
  have hstart := (hu.offsets hkeeps).1
  omega

theorem FoundAt.start_le {j k : Nat} {t u : Token} (ht : lexer.FoundAt text j t)
    (hu : lexer.FoundAt text k u) (hjk : j ≤ k) : t.start.offset ≤ u.start.offset := by
  rcases Nat.eq_or_lt_of_le hjk with rfl | hlt
  · exact Nat.le_of_eq (congrArg (·.start.offset) (ht.unique hu))
  · have hstop := ht.stop_le hkeeps hu hlt
    have hlength := (ht.offsets hkeeps).2.2
    omega

theorem FoundAt.start_lt_stop {j k : Nat} {t u : Token} (ht : lexer.FoundAt text j t)
    (hu : lexer.FoundAt text k u) (hjk : j ≤ k) : t.start.offset < u.span.stop.offset := by
  have hstart := ht.start_le hkeeps hu hjk
  have hlength := (hu.offsets hkeeps).2.2
  omega

theorem FoundAt.stop_le_stop {j k : Nat} {t u : Token} (ht : lexer.FoundAt text j t)
    (hu : lexer.FoundAt text k u) (hjk : j ≤ k) : t.span.stop.offset ≤ u.span.stop.offset := by
  have hplaces := (lexer.reaches_place text (show j + 1 ≤ k + 1 by omega)).offset_le
  have hfirst := (ht.offsets hkeeps).2.1
  have hlast := (hu.offsets hkeeps).2.1
  omega

end

/-! ### Truth -/

theorem trueIn_place (lexer : Lexer) (text : String) (k : Nat) :
    (lexer.place text k).position.TrueIn text.toList := by
  have h := (lexer.sound_place text k).trueIn
  rwa [lexer.text_place] at h

theorem trueIn_of_reaches {k n : Nat} {e : Cursor} (h : Cursor.Reaches n (lexer.place text k) e) :
    e.position.TrueIn text.toList := by
  have he := ((lexer.sound_place text k).reaches h).trueIn
  rwa [h.text_eq, lexer.text_place] at he

theorem TokenOf.trueIn (hkeeps : lexer.KeepsSpans) {t : Token} (h : lexer.TokenOf text t) :
    t.start.TrueIn text.toList ∧ t.span.stop.TrueIn text.toList := by
  obtain ⟨k, hk⟩ := h
  obtain ⟨e, he, -, hspan⟩ := hk.span_eq hkeeps
  rw [Token.start, hspan]
  exact ⟨trueIn_of_reaches he, lexer.trueIn_place text (k + 1)⟩

theorem trueIn_of_found_error (hkeeps : lexer.KeepsSpans) {k : Nat} {e : ReadError}
    (h : lexer.found (lexer.place text k) = .error e) : e.position.TrueIn text.toList := by
  have hbehind := lexer.trueIn_place text (k + 1)
  rw [place, pass] at hbehind
  unfold found at h
  cases hread : lexer.read (lexer.place text k) with
  | ok l d => rw [hread] at h; cases h
  | error e' d =>
    rw [hread] at h hbehind
    cases h
    obtain ⟨c, hskips, hhere, -⟩ := lexer.skips_read (lexer.place text k)
    rcases position_of_readHere hkeeps (hhere.symm.trans hread) with hp | ⟨hp, -⟩
    · rw [hp]; exact trueIn_of_reaches hskips.reaches
    · rw [hp]; exact hbehind

/-- Where no adjustment moves tokens, what the lexer reports is true. -/
theorem PlaceOf.trueIn (hkeeps : lexer.KeepsSpans) {p : Position} (h : lexer.PlaceOf text p) :
    p.TrueIn text.toList := by
  cases h with
  | start h =>
    rcases h with ⟨t, ht, rfl⟩ | rfl
    · exact (ht.trueIn hkeeps).1
    · have hend := Position.trueIn_after text.toList []
      rwa [List.append_nil] at hend
  | stop h =>
    rcases h with ⟨t, ht, rfl⟩ | rfl
    · exact (ht.trueIn hkeeps).2
    · exact Position.trueIn_after [] text.toList
  | unreadable h => exact trueIn_of_found_error hkeeps h

theorem SpanOf.placeOf {span : Span} (h : lexer.SpanOf text span) :
    lexer.PlaceOf text span.start ∧ lexer.PlaceOf text span.stop := by
  cases h with
  | @tokens j k t u _ ht hu =>
    exact ⟨.start (Or.inl ⟨t, ⟨j, ht⟩, rfl⟩), .stop (Or.inl ⟨u, ⟨k, hu⟩, rfl⟩)⟩
  | run hp hq =>
    refine ⟨.start hp, ?_⟩
    unfold Position.latest
    split
    · exact .stop hq
    · exact .start hp

end Lexer

end Descent
