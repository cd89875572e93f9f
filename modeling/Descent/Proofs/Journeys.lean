import Descent.Proofs.Lookahead
import Descent.Proofs.Positions
import Descent.Proofs.Searches
import Mathlib.Logic.Function.Iterate

/-!
# Cursors that keep count

A cursor counts what lies behind it in two ways, in bytes of UTF-8 and as a position. Whatever is
read with it, in whatever order and with returns to bookmarks in between, both counts are of the
same characters: the byte count is the end of one of them, so that the text can be sliced there, and
the position is true. A journey is a cursor with the bookmarks that were made on the way.

* `Cursor.Sound.inStep`: what the counts of a sound cursor say about its text.
* `Move.reaches_apply`: every operation passes over characters ahead, one after the other.
* `Journey.Sound.step`, `Journey.Sound.travel`: one operation or return, and every row of them.
* `inStep_travel`: the counts stay in step all along.
-/
namespace Descent

/-- The bytes that cursors count are those of strings. -/
theorem Scan.utf8Length_eq (cs : List Char) : utf8Length cs = (String.ofList cs).utf8ByteSize := by
  induction cs with
  | nil => rfl
  | cons c cs ih =>
    have hcons : String.ofList (c :: cs) = String.singleton c ++ String.ofList cs := by
      rw [String.singleton_eq_ofList, ← String.ofList_append, List.singleton_append]
    rw [hcons, String.utf8ByteSize_append, String.utf8ByteSize_singleton, utf8Length_cons, ih]

namespace Cursor

variable {c d : Cursor} {text : String}

/-! ## Character by character -/

/-- The cursor behind the next character. At the end of the text it stays. -/
def advance (c : Cursor) : Cursor := c.next.2

theorem iterate_advance (c : Cursor) (n : Nat) : advance^[n] c = c.skip n := by
  induction n generalizing c with
  | zero => exact (skip_zero c).symm
  | succ n ih =>
    rw [Function.iterate_succ_apply, ih]
    exact (skip_add c 1 n).trans (congrArg c.skip (Nat.add_comm 1 n))

/-- Behind the end of the text there is nothing to skip. -/
theorem reaches_skip_any (c : Cursor) (n : Nat) : Reaches 0 c (c.skip n) := by
  have hmin : c.skip n = c.skip (min n c.rest.length) := by
    simp only [skip, ← List.take_eq_take_min, ← List.drop_eq_drop_min]
  rw [hmin]
  exact (reaches_skip (Nat.min_le_right _ _)).mono (Nat.zero_le _)

theorem reaches_takePattern (search : Search) (c : Cursor) :
    Reaches 0 c (c.takePattern search).2 := by
  rcases takePattern_cases search c with hnone | ⟨n, -, hfound⟩
  · rw [hnone]
    exact reaches_refl c
  · rw [hfound]
    exact reaches_skip_any c n

theorem Moved.reaches {α : Type} {result : EStateM.Result ReadError Cursor (Option α)}
    (h : Moved c result) : Reaches 0 c (stateOf result) := by
  cases result with
  | error e d => exact Reaches.mono h (Nat.zero_le 1)
  | ok found d =>
    cases found with
    | none => obtain rfl : d = c := h; exact reaches_refl d
    | some a => exact Reaches.mono h (Nat.zero_le 1)

/-! ## Two counts -/

/-- What the cursor counts in bytes and what it counts in characters lies behind it in the text. -/
structure InStep (text : String) (c : Cursor) : Prop where
  /-- It counts as many bytes as its characters take. -/
  byte_eq : c.byte = (String.ofList (text.toList.take c.position.offset)).utf8ByteSize
  /-- The byte count lies between two characters, and what is left to read is the slice behind. -/
  slices : ∃ place : text.Pos, place.offset.byteIdx = c.byte ∧
    (text.sliceFrom place).copy = String.ofList c.rest
  /-- Line and column are those of its characters. -/
  trueIn : c.position.TrueIn text.toList

theorem Sound.inStep (h : c.Sound) (ht : c.text = text.toList) : InStep text c := by
  obtain ⟨hbyte, hrest⟩ := h.splits
  rw [ht] at hbyte hrest
  rw [Scan.utf8Length_eq] at hbyte
  refine ⟨hbyte, ?_, ht ▸ h.trueIn⟩
  have hjoined : text = String.ofList (text.toList.take c.position.offset) ++
      String.ofList c.rest := by
    rw [← String.ofList_append, hrest, List.take_append_drop, String.ofList_toList]
  have hvalid : String.Pos.Raw.IsValid text
      (String.ofList (text.toList.take c.position.offset)).rawEndPos :=
    String.Pos.Raw.isValid_iff_exists_append.2 ⟨_, _, hjoined, rfl⟩
  have hsplits : (String.Pos.mk _ hvalid).Splits _ (String.ofList c.rest) := ⟨hjoined, rfl⟩
  exact ⟨.mk _ hvalid, hbyte.symm, hsplits.copy_sliceFrom_eq⟩

end Cursor

open Cursor

/-! ## Moves -/

/-- An operation that reads with a cursor. What stands behind a pattern is any search. -/
inductive Move where
  | next
  | skip (n : Nat)
  | literal (text : String)
  | takeWhile (keep : Char → Bool) (escape : Option Char)
  | takeUntil (terminator : String) (escape : Option Char)
  | pattern (search : Search)
  | recognizer (r : Recognizer)
  | form (f : TokenForm)

namespace Move

/-- Where the operation leaves the cursor, also if it fails. -/
def apply (c : Cursor) : Move → Cursor
  | next => c.next.2
  | skip n => c.skip n
  | literal text => (c.takeLiteral text).2
  | takeWhile keep escape => (c.takeWhile keep escape).2
  | takeUntil terminator escape => stateOf (c.takeUntil terminator escape)
  | pattern search => (c.takePattern search).2
  | recognizer r => stateOf (r.read c)
  | form f => stateOf (f.read c)

theorem reaches_apply (c : Cursor) (m : Move) : Reaches 0 c (m.apply c) := by
  cases m with
  | next => exact reaches_skip_any c 1
  | skip n => exact reaches_skip_any c n
  | literal text =>
    rcases takeLiteral_cases text c with hl | ⟨d, hl, hd⟩ <;> simp only [apply, hl]
    · exact reaches_refl c
    · exact hd.mono (Nat.zero_le 1)
  | takeWhile keep escape => exact reaches_skip_any c _
  | takeUntil terminator escape =>
    rcases takeUntil_reaches terminator escape c with ⟨s, d, hu, hd⟩ | ⟨e, d, hu, hd⟩ <;>
      simp only [apply, hu] <;> exact hd
  | pattern search => exact reaches_takePattern search c
  | recognizer r => exact (r.moved_read c).reaches
  | form f => exact (f.settles_read c).1.reaches

end Move

/-! ## Journeys -/

/-- A cursor is moved, or marks where it stands, or returns. The bookmark that was made last is in
slot `0`; to a slot that holds none there is no return. -/
inductive Motion where
  | move (m : Move)
  | mark
  | back (slot : Nat)

/-- A cursor and the bookmarks that were made with it, the latest first. -/
structure Journey where
  cursor : Cursor
  marks : List Bookmark := []

namespace Journey

variable {j : Journey} {text : String}

def start (text : String) : Journey := { cursor := .ofString text }

def back (j : Journey) (slot : Nat) : Journey :=
  match j.marks[slot]? with
  | some b => { j with cursor := j.cursor.goTo b }
  | none => j

def step (j : Journey) : Motion → Journey
  | .move m => { j with cursor := m.apply j.cursor }
  | .mark => { j with marks := j.cursor.bookmark :: j.marks }
  | .back slot => j.back slot

def travel (j : Journey) (motions : List Motion) : Journey := motions.foldl step j

/-- The cursor is a sound one over the text, and its bookmarks were made with such cursors. -/
structure Sound (text : String) (j : Journey) : Prop where
  cursor : j.cursor.Sound
  text_eq : j.cursor.text = text.toList
  marks : ∀ b ∈ j.marks, ∃ c : Cursor, c.Sound ∧ c.text = text.toList ∧ c.bookmark = b

theorem sound_start (text : String) : (start text).Sound text :=
  ⟨sound_ofString text, rfl, nofun⟩

/-- The byte count of a bookmark leads back to the very cursor that it was made with. -/
theorem Sound.back (h : j.Sound text) (slot : Nat) : (j.back slot).Sound text := by
  unfold Journey.back
  split
  · next b hb =>
    obtain ⟨c, hc, htext, rfl⟩ := h.marks b (List.mem_of_getElem? hb)
    have hback : j.cursor.goTo c.bookmark = c := hc.goTo_bookmark (h.text_eq.trans htext.symm)
    simp only [hback]
    exact ⟨hc, htext, h.marks⟩
  · exact h

theorem Sound.step (h : j.Sound text) (m : Motion) : (j.step m).Sound text := by
  cases m with
  | move m =>
    have hmoved : Reaches 0 j.cursor (m.apply j.cursor) := m.reaches_apply j.cursor
    exact ⟨h.cursor.reaches hmoved, hmoved.text_eq.trans h.text_eq, h.marks⟩
  | mark =>
    refine ⟨h.cursor, h.text_eq, fun b hb => ?_⟩
    rcases List.mem_cons.1 hb with rfl | hb
    · exact ⟨j.cursor, h.cursor, h.text_eq, rfl⟩
    · exact h.marks b hb
  | back slot => exact h.back slot

theorem Sound.travel (h : j.Sound text) (motions : List Motion) :
    (j.travel motions).Sound text := by
  induction motions generalizing j with
  | nil => exact h
  | cons m ms ih => exact ih (h.step m)

end Journey

/-- Whatever was done with a cursor over a text, its two counts are in step. Any further operation
goes on character by character, and they stay in step at each of them. -/
theorem inStep_travel (text : String) (motions : List Motion) :
    let c := ((Journey.start text).travel motions).cursor
    InStep text c ∧ ∀ m : Move, ∃ n, m.apply c = advance^[n] c ∧ ∀ k ≤ n,
      InStep text (advance^[k] c) ∧
        (advance^[k] c).position.offset = c.position.offset + k := by
  intro c
  have hj : ((Journey.start text).travel motions).Sound text :=
    (Journey.sound_start text).travel motions
  refine ⟨hj.cursor.inStep hj.text_eq, fun m => ?_⟩
  obtain ⟨n, -, hn, hmoved⟩ := m.reaches_apply c
  refine ⟨n, by rw [iterate_advance, hmoved], fun k hk => ?_⟩
  rw [iterate_advance]
  exact ⟨(hj.cursor.skip k).inStep hj.text_eq, offset_skip (Nat.le_trans hk hn)⟩

/-- Behind the first character, to the end in vain, back to the mark, and into the second line. -/
example :
    ((Journey.start "é\n🦀x").travel [.move .next, .mark, .move (.takeUntil "]" none), .back 0,
      .move (.skip 2)]).cursor.bookmark = ⟨7, ⟨3, 2, 2⟩⟩ := by
  decide

end Descent
