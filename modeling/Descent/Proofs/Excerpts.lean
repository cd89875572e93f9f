import Descent.Grammar.Error
import Descent.Proofs.Positions
import Mathlib.Data.List.DropRight
import Mathlib.Data.List.Forall2

/-!
# Excerpts

An error is shown with the lines around its position. The numbers of these lines are a stretch of
those of all lines, cut off where the text begins and ends, and for a true position the line that is
marked is the one in which the position lies, at the character above the caret.

* `exists_line_of_trueIn`: the line of a true position, and what lies before and behind the
  position in it.
* `excerpt_eq`: the rows of an excerpt, line by line.
* `ParseError.render_points`: an error is shown where it lies.
-/
namespace Descent

namespace Excerpt

variable {text content : List Char} {p : Position}

/-! ## Lines -/

theorem lines_eq_splitOn (text : List Char) : lines text = text.splitOn '\n' := by
  induction text with
  | nil => rfl
  | cons c text ih =>
    rw [lines, List.splitOn_cons_eq_if_modifyHead, ← ih]
    by_cases hc : c = '\n'
    · rw [if_pos hc, if_pos (beq_iff_eq.2 hc)]
    · rw [if_neg hc, if_neg (by simpa using hc)]
      cases hlines : lines text with
      | nil => exact absurd hlines (lines_ne_nil text)
      | cons line rest => rfl

theorem length_splitOn (text : List Char) :
    (text.splitOn '\n').length = text.count '\n' + 1 := by
  induction text with
  | nil => rfl
  | cons c text ih =>
    rw [List.splitOn_cons_eq_if_modifyHead, List.count_cons]
    split
    · rw [List.length_cons, ih]
    · rw [List.length_modifyHead, ih]

/-- A text begins with a line up to its first newline. -/
theorem exists_splitOn_eq_cons {before : List Char} (h : '\n' ∉ before) (ahead : List Char) :
    ∃ below, (before ++ ahead).splitOn '\n' =
      (before ++ ahead.takeWhile (· != '\n')) :: below := by
  have hline : '\n' ∉ before ++ ahead.takeWhile (· != '\n') := by
    rw [List.mem_append, not_or]
    exact ⟨h, fun hmem => by simpa using List.mem_takeWhile_imp hmem⟩
  have hahead := List.takeWhile_append_dropWhile (p := (· != '\n')) (l := ahead)
  have hhead := List.head?_dropWhile_not (· != '\n') ahead
  cases hrest : ahead.dropWhile (· != '\n') with
  | nil =>
    rw [hrest, List.append_nil] at hahead
    rw [hahead] at hline ⊢
    exact ⟨[], List.splitOn_eq_singleton hline⟩
  | cons c rest =>
    rw [hrest] at hahead hhead
    obtain rfl : c = '\n' := by simpa using hhead
    refine ⟨rest.splitOn '\n', ?_⟩
    conv => lhs; rw [← hahead, ← List.append_assoc]
    exact List.splitOn_append_cons_self_of_not_mem hline rest

/-- The line in which a true position lies has as many lines above it as the position counts. It
begins with as many characters as the position counts, and goes on with the text behind the
position. -/
theorem exists_line_of_trueIn (h : p.TrueIn text) :
    ∃ above before below, text.splitOn '\n' =
        above ++ (before ++ (text.drop p.offset).takeWhile (· != '\n')) :: below ∧
      above.length + 1 = p.line ∧ before.length + 1 = p.column := by
  obtain ⟨passed, hpassed⟩ : ∃ passed, text.take p.offset = passed := ⟨_, rfl⟩
  have htext : passed ++ text.drop p.offset = text := hpassed ▸ List.take_append_drop ..
  have hline := h.line_eq
  have hcolumn := h.column_eq
  rw [hpassed] at hline hcolumn
  generalize text.drop p.offset = ahead at htext
  obtain ⟨before, hbefore⟩ : ∃ before, passed.rtakeWhile (· != '\n') = before := ⟨_, rfl⟩
  have hlength : before.length + 1 = p.column := by
    rw [hcolumn, ← hbefore, List.rtakeWhile, List.length_reverse, Nat.add_comm]
  have hplain : '\n' ∉ before := fun hmem => by
    have hne := List.mem_rtakeWhile_imp (p := (· != '\n')) (hbefore ▸ hmem)
    simp at hne
  have hjoin := List.rdropWhile_append_rtakeWhile (p := (· != '\n')) (l := passed)
  rw [hbefore] at hjoin
  obtain ⟨below, hbelow⟩ := exists_splitOn_eq_cons hplain ahead
  rcases List.eq_nil_or_concat (passed.rdropWhile (· != '\n')) with hnil | ⟨front, c, hfront⟩
  · -- No newline lies before the position.
    rw [hnil, List.nil_append] at hjoin
    subst hjoin
    refine ⟨[], before, below, by rw [← htext, hbelow]; rfl, ?_, hlength⟩
    rw [hline, List.count_eq_zero.2 hplain]
    rfl
  · have hlast := List.rdropWhile_last_not (· != '\n') passed (by simp [hfront])
    obtain rfl : c = '\n' := by simpa [hfront] using hlast
    rw [hfront] at hjoin
    refine ⟨front.splitOn '\n', before, below, ?_, ?_, hlength⟩
    · rw [← htext, ← hjoin, ← hbelow, ← List.splitOn_append_cons_self]
      simp
    · rw [hline, ← hjoin, length_splitOn, List.count_append, List.count_eq_zero.2 hplain]
      simp
      omega

/-- The character behind a true position stands at the position's column in the position's line. -/
theorem getElem?_column (h : p.TrueIn text)
    (hline : (text.splitOn '\n')[p.line - 1]? = some content) {c : Char}
    (hc : text[p.offset]? = some c) (hplain : c ≠ '\n') : content[p.column - 1]? = some c := by
  obtain ⟨above, before, below, hsplit, habove, hbefore⟩ := exists_line_of_trueIn h
  have hnumber : p.line - 1 = above.length := by omega
  have hcolumn : p.column - 1 = before.length := by omega
  rw [hsplit, hnumber, List.getElem?_append_right le_rfl, Nat.sub_self,
    List.getElem?_cons_zero, Option.some.injEq] at hline
  obtain ⟨rest, hrest⟩ : ∃ rest, text.drop p.offset = c :: rest := by
    rw [← List.head?_eq_some_iff, List.head?_drop, hc]
  rw [hrest, List.takeWhile_cons_of_pos (by simpa using hplain)] at hline
  rw [← hline, hcolumn, List.getElem?_append_right le_rfl, Nat.sub_self, List.getElem?_cons_zero]

/-! ## Lines as they are shown -/

/-- A line is shown as it is, but for a carriage return at its end. -/
def Shows (line view : List Char) : Prop :=
  line = view ++ ['\r'] ∨ line = view ∧ line.getLast? ≠ some '\r'

theorem shows_visible (line : List Char) : Shows line (visible line) := by
  unfold visible
  split
  next h =>
    obtain ⟨front, rfl⟩ := List.getLast?_eq_some_iff.1 h
    exact .inl (by rw [List.dropLast_concat])
  next h => exact .inr ⟨rfl, h⟩

/-- What stands before the line of a number. -/
def heading (mark : String) (number : Nat) : List Char :=
  (mark ++ toString number ++ " | ").toList

/-- A line with what stands before it. The lines are counted from one. -/
def row (mark : String) (views : List (List Char)) (number : Nat) : List Char :=
  heading mark number ++ views[number - 1]?.getD []

theorem margin_eq (p : Position) (number : Nat) :
    margin p number = heading (if number = p.line then "  > " else "    ") number := rfl

/-- What stands before the caret below a line that is shown: a blank below everything in front of
the line, and one below each character before the column, as far as the line has so many. Below a
tab of the line stands a tab. -/
structure Indents (margin column : Nat) (content indent : List Char) : Prop where
  length_eq : indent.length = margin + min (column - 1) content.length
  getElem?_eq : ∀ i < indent.length, indent[i]? =
    some (if margin ≤ i ∧ content[i - margin]? = some '\t' then '\t' else ' ')

theorem exists_pointer_eq (p : Position) (line : List Char) :
    ∃ indent, pointer p line = indent ++ "^--- here".toList ∧
      Indents (heading "  > " p.line).length p.column line indent := by
  have hmargin : margin p p.line = heading "  > " p.line := by rw [margin_eq, if_pos rfl]
  refine ⟨_, by rw [pointer, hmargin], ?_, fun i hi => ?_⟩
  · rw [List.length_append, List.length_replicate, List.length_map, List.length_take]
  · generalize (heading "  > " p.line).length = width at hi ⊢
    rw [List.length_append, List.length_replicate, List.length_map] at hi
    rcases Nat.lt_or_ge i width with hlt | hge
    · rw [List.getElem?_append_left (by rwa [List.length_replicate]),
        List.getElem?_replicate_of_lt hlt, if_neg fun h => Nat.not_le_of_lt hlt h.1]
    · have hin : i - width < (line.take (p.column - 1)).length := by omega
      rw [List.getElem?_append_right (by rwa [List.length_replicate]), List.length_replicate,
        List.getElem?_map, List.getElem?_eq_getElem hin, Option.map_some]
      rw [List.length_take] at hin
      rw [List.getElem_take, List.getElem?_eq_getElem (by omega)]
      simp [hge]

/-! ## The rows of an excerpt -/

theorem filter_range' (first last n : Nat) :
    (List.range' 1 n).filter (fun k => first ≤ k && k ≤ last) =
      List.range' (max 1 first) (min last n + 1 - max 1 first) := by
  induction n with
  | zero =>
    have hempty : min last 0 + 1 - max 1 first = 0 := by omega
    rw [hempty]
    rfl
  | succ n ih =>
    rw [List.range'_1_concat, List.filter_append, ih]
    by_cases hin : first ≤ 1 + n ∧ 1 + n ≤ last
    · have hcount : min last (n + 1) + 1 - max 1 first =
        (min last n + 1 - max 1 first) + 1 := by omega
      have hnext : max 1 first + (min last n + 1 - max 1 first) = 1 + n := by omega
      rw [hcount, List.range'_1_concat, hnext]
      simp [hin]
    · have hcount : min last (n + 1) + 1 - max 1 first =
        min last n + 1 - max 1 first := by omega
      rw [hcount]
      simpa using hin

/-- The lines with their numbers, the first of which is one. -/
theorem zipIdx_eq_map_range' (views : List (List Char)) :
    views.zipIdx 1 =
      (List.range' 1 views.length).map fun k => (views[k - 1]?.getD [], k) := by
  refine List.ext_getElem (by simp) fun i hi hi' => ?_
  have hlt : i < views.length := by simpa using hi
  simp [Nat.add_comm, hlt]

/-- The numbers around a line, parted at the line. -/
theorem range'_split {first line last : Nat} (hfirst : first ≤ line) (hlast : line ≤ last) :
    List.range' first (last + 1 - first) =
      List.range' first (line - first) ++ line :: List.range' (line + 1) (last - line) := by
  have hcount : last + 1 - first = (line - first) + (last - line + 1) := by omega
  have hline : first + (line - first) = line := by omega
  rw [hcount, ← List.range'_append_1, hline, List.range'_succ]

variable (p) in
theorem flatMap_shown {numbers : List Nat} (h : p.line ∉ numbers) (views : List (List Char)) :
    (numbers.flatMap fun k => shown p k (views[k - 1]?.getD [])) =
      numbers.map (row "    " (views.map visible)) := by
  rw [List.map_eq_flatMap]
  refine List.flatMap_congr fun k hk => ?_
  have hne : k ≠ p.line := fun heq => h (heq ▸ hk)
  have hview : visible (views[k - 1]?.getD []) = (views.map visible)[k - 1]?.getD [] := by
    rw [List.getElem?_map]
    cases views[k - 1]? <;> rfl
  rw [shown, if_neg hne, margin_eq, if_neg hne, hview, row]

/-- An excerpt around one of the lines: the lines above it, the line with its mark and the pointer,
and the lines below it. -/
theorem excerpt_eq {views : List (List Char)} (hviews : (lines text).map visible = views)
    (hpos : 1 ≤ p.line) (hline : p.line ≤ views.length) :
    excerpt text p =
      let first := max 1 (p.line - reach)
      let last := min (p.line + reach) views.length
      (List.range' first (p.line - first)).map (row "    " views) ++
        [row "  > " views p.line, pointer p (views[p.line - 1]?.getD [])] ++
        (List.range' (p.line + 1) (last - p.line)).map (row "    " views) := by
  obtain ⟨first, hfirst⟩ : ∃ first, max 1 (p.line - reach) = first := ⟨_, rfl⟩
  obtain ⟨last, hlast⟩ : ∃ last, min (p.line + reach) views.length = last := ⟨_, rfl⟩
  have hle : first ≤ p.line := by omega
  have hge : p.line ≤ last := by omega
  have habove : p.line ∉ List.range' first (p.line - first) := by
    rw [List.mem_range'_1]
    omega
  have hbelow : p.line ∉ List.range' (p.line + 1) (last - p.line) := by
    rw [List.mem_range'_1]
    omega
  have hat : shown p p.line ((lines text)[p.line - 1]?.getD []) =
      [row "  > " views p.line, pointer p (views[p.line - 1]?.getD [])] := by
    rw [shown, if_pos rfl, margin_eq, if_pos rfl, row, ← hviews, List.getElem?_map]
    cases (lines text)[p.line - 1]? <;> rfl
  have hnumbers := filter_range' (p.line - reach) (p.line + reach) views.length
  have hcount : (lines text).length = views.length := by rw [← hviews, List.length_map]
  rw [hfirst, hlast, range'_split hle hge] at hnumbers
  rw [excerpt, zipIdx_eq_map_range', List.filter_map, List.flatMap_map, hcount]
  simp only [Function.comp_def, hnumbers, List.flatMap_append, List.flatMap_cons, hat,
    flatMap_shown p habove, flatMap_shown p hbelow, hviews, hfirst, hlast, List.append_assoc]

theorem forall₂_shows (views : List (List Char)) :
    List.Forall₂ Shows views (views.map visible) := by
  rw [List.forall₂_map_right_iff, List.forall₂_same]
  exact fun line _ => shows_visible line

/-- What is rendered points at a position of a text: from the line two above that of the position
to the line two below it, as far as there are so many, the lines are shown with their numbers. The
line of the position alone is marked, and the caret below it stands at the position. -/
structure Points (p : Position) (text message rendered : String) (views : List (List Char))
    (indent : List Char) : Prop where
  shows_views : List.Forall₂ Shows (text.toList.splitOn '\n') views
  one_le_line : 1 ≤ p.line
  line_le : p.line ≤ views.length
  /-- Unless it ends the line, the character at the position stands at the column of the line. -/
  getElem?_column : ∀ content c, (text.toList.splitOn '\n')[p.line - 1]? = some content →
    text.toList[p.offset]? = some c → c ≠ '\n' → content[p.column - 1]? = some c
  indents : Indents (heading "  > " p.line).length p.column (views[p.line - 1]?.getD []) indent
  rendered_eq : rendered =
    let first := max 1 (p.line - 2)
    let last := min (p.line + 2) views.length
    message ++ "\n\n" ++ String.ofList (['\n'].intercalate
      ((List.range' first (p.line - first)).map (row "    " views) ++
        [row "  > " views p.line, indent ++ "^--- here".toList] ++
        (List.range' (p.line + 1) (last - p.line)).map (row "    " views)))

end Excerpt

namespace ParseError

open Excerpt

/-- An error is shown where it lies. -/
theorem render_points {e : ParseError} {p : Position} {text : String}
    (he : e.position? = some p) (hp : p.TrueIn text.toList) :
    ∃ views indent, Points p text e.message (e.render text) views indent := by
  obtain ⟨above, before, below, hsplit, habove, -⟩ := exists_line_of_trueIn hp
  obtain ⟨views, hviews⟩ : ∃ views, (lines text.toList).map visible = views := ⟨_, rfl⟩
  have hshows := forall₂_shows (lines text.toList)
  have hlength : views.length = above.length + (below.length + 1) := by
    rw [← hviews, List.length_map, lines_eq_splitOn, hsplit, List.length_append, List.length_cons]
  have hpos : 1 ≤ p.line := by omega
  have hline : p.line ≤ views.length := by omega
  obtain ⟨indent, hpointer, hindent⟩ := exists_pointer_eq p (views[p.line - 1]?.getD [])
  have hrender : e.render text = e.message ++ "\n\n" ++
      String.ofList (['\n'].intercalate (excerpt text.toList p)) := by
    rw [render, he]
    rfl
  refine ⟨views, indent, ?_, hpos, hline, ?_, hindent, ?_⟩
  · rwa [← lines_eq_splitOn, ← hviews]
  · exact fun content c hat hc => getElem?_column hp hat hc
  · rw [hrender, excerpt_eq hviews hpos hline, hpointer]
    rfl

/-- The marked line ends in a carriage return and has a tab before the caret, and the number of the
line below it is longer. -/
theorem render_points_tab :
    (mismatch ⟨10, 9, 3⟩ "no sign").position? = some ⟨10, 9, 3⟩ ∧
    Position.TrueIn "\n\n\n\n\n\n\n\nα\t= 1\r\nend".toList ⟨10, 9, 3⟩ ∧
    ∃ views indent, Points ⟨10, 9, 3⟩ "\n\n\n\n\n\n\n\nα\t= 1\r\nend"
      (mismatch ⟨10, 9, 3⟩ "no sign").message
      ((mismatch ⟨10, 9, 3⟩ "no sign").render "\n\n\n\n\n\n\n\nα\t= 1\r\nend") views indent :=
  have htrue : Position.TrueIn "\n\n\n\n\n\n\n\nα\t= 1\r\nend".toList ⟨10, 9, 3⟩ :=
    ⟨by decide, by decide, by decide⟩
  ⟨rfl, htrue, render_points rfl htrue⟩

example : (mismatch ⟨10, 9, 3⟩ "no sign").render "\n\n\n\n\n\n\n\nα\t= 1\r\nend" =
    "Problem with line 9:3: no sign\n\n    7 | \n    8 | \n  > 9 | α\t= 1\n" ++
      "         \t^--- here\n    10 | end" := by
  decide +kernel

end ParseError

end Descent
