import Descent.Proofs.Climbing
import Descent.Proofs.Progress
import Descent.Proofs.Skipped

/-!
# How far a failure came

A failure reports an offset (`Outcome.reached`). The stream really came to it, and there the shape
failed that is to blame; but it need not be the furthest offset of the run. If a part gives up and
what is around it goes on all the same, then a failure that comes later does not know how far that
part had read.

* `reached_furthest_iff`: the offset is the furthest of the run exactly if nothing that was taken
  back had come further.
* `failure_of_one_shape`: message, position and offset are those of one shape that failed by itself.
* `reached_position_apart`: what an adjustment that moves tokens, or a checkpoint of another text,
  does to the offset and the position.
-/
namespace Descent

open Descent.Stream

variable {lexer : Lexer} {text : String}

/-! ## Offsets of a log -/

/-- The offsets that the stream came to. -/
def visited (l : List (Sight lexer)) : List Nat :=
  l.filterMap fun
    | .stood s => some s.offset
    | _ => none

/-- The offsets up to which the text had been read when it was taken back. -/
def takenBack (l : List (Sight lexer)) : List Nat :=
  l.filterMap fun
    | .dropped r => some r
    | _ => none

variable {l : List (Sight lexer)} {n : Nat}

theorem mem_visited : n ∈ visited l ↔ ∃ t, .stood t ∈ l ∧ t.offset = n := by
  unfold visited
  rw [List.mem_filterMap]
  constructor
  · rintro ⟨x, hx, hn⟩
    cases x <;> cases hn
    exact ⟨_, hx, rfl⟩
  · rintro ⟨t, ht, rfl⟩
    exact ⟨_, ht, rfl⟩

theorem mem_takenBack : n ∈ takenBack l ↔ .dropped n ∈ l := by
  unfold takenBack
  rw [List.mem_filterMap]
  constructor
  · rintro ⟨x, hx, hn⟩
    cases x <;> cases hn
    exact hx
  · intro hn
    exact ⟨_, hn, rfl⟩

/-- A state that the stream came to lies behind its last one, or before something that was taken
back; and what was taken back had been read. -/
theorem Told.visited_le_iff {allowed : Script → Prop} {s s' : Stream lexer}
    (h : Told text allowed s s' l) {m : Nat} (hm : s'.offset ≤ m) :
    (∀ n ∈ visited l, n ≤ m) ↔ ∀ r ∈ takenBack l, r ≤ m := by
  constructor
  · intro hall r hr
    obtain ⟨t, ht, rfl⟩ := h.dropped r (mem_takenBack.1 hr)
    exact hall _ (mem_visited.2 ⟨t, ht, rfl⟩)
  · intro hall n hn
    obtain ⟨t, ht, rfl⟩ := mem_visited.1 hn
    rcases h.covered t ht with hle | ⟨r, hr, hle⟩
    · exact Nat.le_trans hle hm
    · exact Nat.le_trans hle (hall r (mem_takenBack.2 hr))

theorem Outcome.failure?_eq_some_iff {o : Outcome} {f : Failure} :
    o.failure? = some f ↔ o.verdict = .failed f := by
  obtain ⟨verdict, key, nesting, progress⟩ := o
  cases verdict <;> simp [failure?]

/-! ## The furthest offset -/

variable {g : Grammar} {p : Segment} {s s' : Stream lexer} {o : Outcome}

/-- A failure reports an offset that the stream came to during the run, not before the first token,
from which its progress is counted. It is the greatest offset of the run exactly if nothing that was
taken back, from a part that gave up or by a script, had been read any further. A script leaves it
to the segment around it to say how far a failure came. -/
theorem reached_furthest_iff (hg : g.Throughout (Shape.ScriptIn Script.Plain))
    (hp : p.Throughout (Shape.ScriptIn Script.Plain)) (hs : s.Reachable text)
    (h : p.run g s = .ok o s') (hm : o.isMatch = false) :
    o.reached ∈ visited (p.sights g s) ∧ (stateOf (peek s)).offset ≤ o.reached ∧
      o.progress = o.reached - (stateOf (peek s)).offset ∧
      ((∀ n ∈ visited (p.sights g s), n ≤ o.reached) ↔
        ∀ r ∈ takenBack (p.sights g s), r ≤ o.reached) := by
  have hrun : Reported text Script.Plain s s' (p.sights g s) o :=
    reported_runWithin (fun _ hplain => hplain) hg hp _ hs h
  have hback := (hrun.undone hm).1
  obtain ⟨f, hf⟩ : ∃ f, o.verdict = .failed f := by
    cases hv : o.verdict with
    | matched data => rw [Outcome.isMatch, hv] at hm; cases hm
    | failed f => exact ⟨f, rfl⟩
  have hreached : o.reached = f.reached := by rw [Outcome.reached, hf]
  obtain ⟨hle, hdropped, -⟩ := hrun.settled f hf
  rw [hreached]
  refine ⟨mem_visited.2 (hrun.told.dropped _ hdropped), hback ▸ hle, ?_,
    hrun.told.visited_le_iff hle⟩
  rw [hrun.progress_eq hm, hreached, hback]

/-- Two words if there are two, and then this. -/
def twoWordsThen (rest : List Segment) : Rule where
  name := "both"
  segments := .optional twoWords.toSegment :: rest

theorem scriptless_ofKind (kind : String) : (Segment.ofKind kind).Scriptless :=
  Segment.throughout_of_parts_eq_nil rfl trivial

theorem scriptless_fail (message : String) : (Segment.fail message).Scriptless :=
  Segment.throughout_of_parts_eq_nil rfl trivial

theorem scriptless_words : ∀ p ∈ [Segment.ofKind "word", .ofKind "word"], p.Scriptless :=
  List.forall_mem_cons.2 ⟨scriptless_ofKind _, List.forall_mem_singleton.2 (scriptless_ofKind _)⟩

theorem scriptless_twoWordsThen {rest : List Segment} (h : ∀ p ∈ rest, p.Scriptless) :
    (twoWordsThen rest).toSegment.Scriptless := by
  have hwords : twoWords.toSegment.Scriptless := Rule.scriptless_toSegment scriptless_words
  refine Rule.scriptless_toSegment (List.forall_mem_cons.2 ⟨?_, h⟩)
  exact Segment.throughout_iff.2 ⟨trivial, List.forall_mem_singleton.2 hwords⟩

/-- On a single word, the second of two words is missed where the part before it had come to. -/
theorem reached_furthest_iff_word :
    let s : Stream wordsAndBlanks := .ofString "a"
    let p := (twoWordsThen [.ofKind "word", .ofKind "word"]).toSegment
    ∃ o s', p.run {} s = .ok o s' ∧ o.isMatch = false ∧ o.reached = 1 ∧
      ∀ n ∈ visited (p.sights {} s), n ≤ o.reached := by
  intro s p
  have hended : endedIn (fun o _ => !o.isMatch && o.reached == 1) (p.run {} s) = true := by
    decide +kernel
  obtain ⟨o, s', h, hend⟩ := exists_of_endedIn hended
  simp only [Bool.and_eq_true, Bool.not_eq_true', beq_iff_eq] at hend
  obtain ⟨hm, hreached⟩ := hend
  have hback : ∀ r ∈ takenBack (p.sights {} s), r ≤ 1 := by decide +kernel
  have hscriptless : p.Scriptless := scriptless_twoWordsThen scriptless_words
  refine ⟨o, s', h, hm, hreached, ?_⟩
  obtain ⟨-, -, -, hiff⟩ :=
    reached_furthest_iff (Grammar.throughout_empty _) (hscriptless.throughout _) .start h hm
  exact hiff.2 (hreached ▸ hback)

/-- Two words are missed behind the only one, and left out; then the failure at the start of the
text does not know that the stream was behind the word. -/
theorem reached_not_furthest :
    ¬ (∀ (lexer : Lexer) (text : String) (g : Grammar) (p : Segment) (s s' : Stream lexer) o,
        s.Reachable text → p.run g s = .ok o s' → o.isMatch = false →
        ∀ n ∈ visited (p.sights g s), n ≤ o.reached) ∧
    (let s : Stream wordsAndBlanks := .ofString "a"
      let p := (twoWordsThen [.fail "no"]).toSegment
      endedIn (fun o _ => !o.isMatch && o.reached == 0 && o.progress == 0) (p.run {} s) = true ∧
        1 ∈ visited (p.sights {} s)) := by
  have hended : endedIn (fun o _ => !o.isMatch && o.reached == 0 && o.progress == 0)
      ((twoWordsThen [.fail "no"]).toSegment.run {} (.ofString "a" : Stream wordsAndBlanks)) =
        true := by decide +kernel
  have hvisited : 1 ∈ visited ((twoWordsThen [.fail "no"]).toSegment.sights {}
      (.ofString "a" : Stream wordsAndBlanks)) := by decide +kernel
  refine ⟨fun hall => ?_, hended, hvisited⟩
  obtain ⟨o, s', h, hend⟩ := exists_of_endedIn hended
  simp only [Bool.and_eq_true, Bool.not_eq_true', beq_iff_eq] at hend
  obtain ⟨⟨hm, hreached⟩, -⟩ := hend
  have := hall _ "a" {} _ _ s' o .start h hm 1 hvisited
  omega

/-! ## One shape to blame -/

/-- A failure of a run without scripts is that of one shape that failed by itself during the run:
the message and the position are those of its failure, and the stream stood at the offset that is
reported. The offset does not lie before the first token of the run, and it gives the progress. Only
skipped text lies between the offset and the token, or the end of the text, whose position the
failure has. If no adjustment moves tokens, this is where that token stands in the text. -/
theorem failure_of_one_shape (hg : g.Scriptless) (hp : p.Scriptless) (hs : s.Reachable text)
    (h : p.run g s = .ok o s') {f : Failure} (hf : o.failure? = some f) :
    (∃ origin t f', .missed origin t f' ∈ p.sights g s ∧ origin.Primitive ∧
      f'.message = f.message ∧ f'.position = f.position ∧ t.offset = f.reached) ∧
    (stateOf (peek s)).offset ≤ f.reached ∧
    o.progress = f.reached - (stateOf (peek s)).offset ∧
    ∃ n, f.reached ≤ n ∧ n ≤ text.toList.length ∧
      lexer.Skips ((Cursor.ofString text).skip f.reached) ((Cursor.ofString text).skip n) ∧
      lexer.Shows ((Cursor.ofString text).skip n) f.position ∧
      (lexer.KeepsSpans →
        f.position = ((Cursor.ofString text).skip n).position ∧ f.position.offset = n) := by
  have hrun : Reported text (fun _ => False) s s' (p.sights g s) o :=
    reported_runWithin (fun _ => False.elim) hg hp _ hs h
  have hf := Outcome.failure?_eq_some_iff.1 hf
  have hm : o.isMatch = false := by rw [Outcome.isMatch, hf]
  have hback := (hrun.undone hm).1
  obtain ⟨hle, -, origin, t, f', hmissed, hoffset, hmessage, hposition⟩ := hrun.settled f hf
  obtain ⟨ht, ⟨horigin, hlook⟩ | ⟨request, parts, -, hnone⟩⟩ := hrun.told.genuine _ hmissed
  · refine ⟨⟨origin, t, f', hmissed, horigin, hmessage, hposition, hoffset⟩, hback ▸ hle, ?_, ?_⟩
    · rw [hrun.progress_eq hm, hback, Outcome.reached, hf]
    · obtain ⟨n, hn, hlength, hskips, hshows⟩ := ht.skips_position hlook
      rw [hoffset] at hn hskips
      rw [hposition] at hshows
      refine ⟨n, hn, hlength, hskips, hshows, fun hkeeps => ?_⟩
      have hstart := hshows.eq_position hkeeps
      refine ⟨hstart, ?_⟩
      rw [hstart, Cursor.offset_skip hlength]
      exact Nat.zero_add n
  · exact hnone.elim

/-- One of two failures, the second of which comes behind a word. -/
def failOrStumble : Segment :=
  .choice [.fail "first",
    Rule.toSegment { name := "stuck", segments := [.ofKind "word", .fail "second"] }]

theorem scriptless_failOrStumble : failOrStumble.Scriptless := by
  refine Segment.throughout_iff.2 ⟨trivial, List.forall_mem_cons.2
    ⟨scriptless_fail _, List.forall_mem_singleton.2 (Rule.scriptless_toSegment ?_)⟩⟩
  exact List.forall_mem_cons.2
    ⟨scriptless_ofKind _, List.forall_mem_singleton.2 (scriptless_fail _)⟩

theorem keepsSpans_wordsAndBlanks : wordsAndBlanks.KeepsSpans :=
  Lexer.keepsSpans_of_no_adjustments (by simp [wordsAndBlanks])

/-- Before two blanks the stream has come as far as the word; the failure stands behind them. -/
theorem failure_of_one_shape_blanks :
    let s : Stream wordsAndBlanks := .ofString "a  a"
    ∃ o s' f, failOrStumble.run {} s = .ok o s' ∧ o.failure? = some f ∧
      f.message = some "second" ∧ f.reached = 1 ∧ f.position.offset = 3 ∧ o.progress = 1 ∧
      (∃ origin t f', .missed origin t f' ∈ failOrStumble.sights {} s ∧ origin.Primitive ∧
        f'.message = some "second" ∧ t.offset = 1) ∧
      wordsAndBlanks.Skips ((Cursor.ofString "a  a").skip 1) ((Cursor.ofString "a  a").skip 3) := by
  intro s
  have hended : endedIn (fun o _ => o.failure?.any fun f =>
      f.message == some "second" && f.reached == 1 && f.position.offset == 3)
      (failOrStumble.run {} s) = true := by decide +kernel
  obtain ⟨o, s', f, h, hf, hend⟩ := exists_failure_of_endedIn hended
  simp only [Bool.and_eq_true, beq_iff_eq] at hend
  obtain ⟨⟨hmessage, hreached⟩, hoffset⟩ := hend
  obtain ⟨⟨origin, t, f', hmissed, horigin, hmessage', -, ht⟩, -, hprogress, n, -, -, hskips, -,
    hstart⟩ :=
    failure_of_one_shape (Grammar.throughout_empty _) scriptless_failOrStumble .start h hf
  obtain rfl : f.position.offset = n := (hstart keepsSpans_wordsAndBlanks).2
  rw [hreached, hoffset] at hskips
  refine ⟨o, s', f, h, hf, hmessage, hreached, hoffset, ?_, ?_, hskips⟩
  · rw [hprogress, hreached]
    rfl
  · exact ⟨origin, t, f', hmissed, horigin, hmessage'.trans hmessage, ht.trans hreached⟩

/-- Words of one letter that stand at the start of the text by their own account. -/
def wordsAtStart : Lexer where
  forms := [⟨"blank", [.literals [" "]], []⟩, ⟨"word", [.literals ["a"]], [.atStart]⟩]
  skipped := ["blank"]

/-- A word, and then another than there is. -/
def wordThenOther : Rule where
  name := "other"
  segments := [.ofKind "word", .exact "word" "x"]

theorem scriptless_exact (kind text : String) : (Segment.exact kind text).Scriptless :=
  Segment.throughout_of_parts_eq_nil rfl trivial

theorem scriptless_wordThenOther : wordThenOther.toSegment.Scriptless :=
  Rule.scriptless_toSegment <| List.forall_mem_cons.2
    ⟨scriptless_ofKind _, List.forall_mem_singleton.2 (scriptless_exact _ _)⟩

/-- A failure can come further than its position says, where an adjustment moves tokens. And on a
stream that was returned to a checkpoint over another text, more than skipped text may lie before
the position. -/
theorem reached_position_apart :
    (¬ ∀ (lexer : Lexer) (text : String) (g : Grammar) (p : Segment) (s s' : Stream lexer) o f,
        g.Scriptless → p.Scriptless → s.Reachable text → p.run g s = .ok o s' →
        o.failure? = some f → f.reached ≤ f.position.offset) ∧
    ¬ ∀ (lexer : Lexer) (text : String) (g : Grammar) (p : Segment) (s s' : Stream lexer) o f,
        lexer.KeepsSpans → g.Scriptless → p.Scriptless → s.text = text → p.run g s = .ok o s' →
        o.failure? = some f → lexer.Skips ((Cursor.ofString text).skip f.reached)
          ((Cursor.ofString text).skip f.position.offset) := by
  constructor <;> intro hall
  · have hended : endedIn (fun o _ => o.failure?.any fun f =>
        f.reached == 1 && f.position.offset == 0)
        (wordThenOther.toSegment.run {} (.ofString "a a" : Stream wordsAtStart)) = true := by
      decide +kernel
    obtain ⟨o, s', f, h, hf, hend⟩ := exists_failure_of_endedIn hended
    simp only [Bool.and_eq_true, beq_iff_eq] at hend
    have := hall _ "a a" {} _ _ s' o f (Grammar.throughout_empty _) scriptless_wordThenOther .start
      h hf
    omega
  · -- The blank is passed over as the first character, but the text has a letter there.
    have hended : endedIn (fun o _ => o.failure?.any fun f =>
        f.reached == 1 && f.position.offset == 2)
        ((Segment.exact "word" "x").run {} (Stream.strayed mixedWords "é" "aa b")) = true := by
      decide +kernel
    obtain ⟨o, s', f, h, hf, hend⟩ := exists_failure_of_endedIn hended
    simp only [Bool.and_eq_true, beq_iff_eq] at hend
    have hskips := hall _ "aa b" {} _ _ s' o f keepsSpans_mixedWords (Grammar.throughout_empty _)
      (scriptless_exact "word" "x") rfl h hf
    rw [hend.1, hend.2] at hskips
    have hread : Lexer.readWith mixedWords.forms ((Cursor.ofString "aa b").skip 1) =
        .ok none ((Cursor.ofString "aa b").skip 1) := rfl
    generalize hd : (Cursor.ofString "aa b").skip 2 = d at hskips
    cases hskips with
    | here => cases hd
    | skip hread' => cases hread.symm.trans hread'

end Descent
