import Descent.Lexing.Recognizer
import Descent.Proofs.Scanning

/-!
# Quoting

Every text can be written between two delimiters. An escape is put in front of the escapes of the
text and of each of its characters that could begin the closing delimiter; the other characters of
the delimiter need none, for behind an escape it can not have begun.

* `Scan.plainUntil_quote`: the scan of a quoted text stops at its terminator and has undone the
  escapes.
* `Recognizer.read_written`: what was written between delimiters is read as it was, and what
  follows is left.
-/
namespace Descent

namespace Scan

variable {terminator : List Char} {escape c : Char}

/-- The text with the escape in front of every escape and of every character that begins the
terminator. -/
def quote (terminator : List Char) (escape : Char) (text : List Char) : List Char :=
  text.flatMap fun c => if c = escape ∨ terminator.head? = some c then [escape, c] else [c]

theorem quote_cons_of_escaped (h : c = escape ∨ terminator.head? = some c) (text : List Char) :
    quote terminator escape (c :: text) = escape :: c :: quote terminator escape text := by
  rw [quote, List.flatMap_cons, if_pos h]
  rfl

theorem quote_cons_of_plain (h : ¬ (c = escape ∨ terminator.head? = some c)) (text : List Char) :
    quote terminator escape (c :: text) = c :: quote terminator escape text := by
  rw [quote, List.flatMap_cons, if_neg h]
  rfl

theorem meaning_of_ne (h : c ≠ 'n') : meaning c = c := if_neg h

/-! ### The scan of a quoted text -/

theorem plainUntil_terminator (h : terminator ≠ []) (escape : Option Char) (rest : List Char) :
    plainUntil terminator escape (terminator ++ rest) = some ([], terminator.length) := by
  have hliteral : literal terminator (terminator ++ rest) = true :=
    literal_iff.2 ⟨h, List.prefix_append ..⟩
  cases terminator with
  | nil => exact absurd rfl h
  | cons x xs =>
    rw [List.cons_append] at hliteral ⊢
    unfold plainUntil
    exact if_pos hliteral

theorem plainUntil_escaped (h : terminator.head? ≠ some escape) (c : Char) (cs : List Char) :
    plainUntil terminator (some escape) (escape :: c :: cs) =
      (plainUntil terminator (some escape) cs).map
        fun found => (meaning c :: found.1, found.2 + 2) := by
  rw [plainUntil, if_neg (by simp [literal_eq_false_of_head? h]), if_pos (Option.mem_some_self _)]

theorem plainUntil_of_plain (h : ¬ (c = escape ∨ terminator.head? = some c)) (cs : List Char) :
    plainUntil terminator (some escape) (c :: cs) =
      (plainUntil terminator (some escape) cs).map fun found => (c :: found.1, found.2 + 1) := by
  obtain ⟨hescape, hfirst⟩ := not_or.1 h
  have hc : c ∉ some escape := fun hc => hescape (Option.some.inj hc).symm
  have hliteral : ¬ literal terminator (c :: cs) = true := by
    simp [literal_eq_false_of_head? hfirst]
  rw [plainUntil.eq_def]
  simp only [if_neg hliteral, if_neg hc]

/-- A quoted text is scanned up to its terminator, and comes out as it was. -/
theorem plainUntil_quote (hterminator : terminator ≠ []) (hescape : terminator.head? ≠ some escape)
    (hmeaning : ∀ c, c = escape ∨ terminator.head? = some c → meaning c = c)
    (text rest : List Char) :
    plainUntil terminator (some escape) (quote terminator escape text ++ (terminator ++ rest)) =
      some (text, (quote terminator escape text).length + terminator.length) := by
  induction text with
  | nil =>
    rw [show quote terminator escape [] = [] from rfl, List.nil_append,
      plainUntil_terminator hterminator, List.length_nil, Nat.zero_add]
  | cons c text ih =>
    by_cases hc : c = escape ∨ terminator.head? = some c
    · rw [quote_cons_of_escaped hc, List.cons_append, List.cons_append, plainUntil_escaped hescape,
        ih, Option.map_some, hmeaning c hc, List.length_cons, List.length_cons]
      congr 2
      omega
    · rw [quote_cons_of_plain hc, List.cons_append, plainUntil_of_plain hc, ih, Option.map_some,
        List.length_cons, Nat.add_right_comm]

end Scan

/-! ## Between delimiters -/

namespace Recognizer

variable {opening closing : String} {escape : Char} {c : Cursor}

/-- The text between the delimiters, quoted. -/
def written (opening closing : String) (escape : Char) (text : String) : String :=
  opening ++ String.ofList (Scan.quote closing.toList escape text.toList) ++ closing

/-- Once the opening delimiter is passed the closing one is read up to. -/
theorem read_quoted_of_opening (hopening : opening ≠ "") (h : opening.toList <+: c.rest)
    (closing : String) (escape : Option Char) :
    (quoted opening closing escape).read c =
      (some <$> Cursor.takeUntil closing escape) (c.skip opening.toList.length) := by
  have hliteral : Scan.literal opening.toList c.rest = true :=
    Scan.literal_iff.2 ⟨fun hnil => hopening (String.toList_eq_nil_iff.1 hnil), h⟩
  simp only [read, Cursor.takeLiteral, hliteral, if_true]

/-- Every text is read from between delimiters as it was written there, whatever follows, if the
escape does not begin the closing delimiter and neither of the two is the letter that an escape
turns into a newline. The cursor stops behind the closing delimiter; what was read chunk by chunk
behind the opening one is the same. -/
theorem read_written (hopening : opening ≠ "") (hclosing : closing ≠ "") (hescape : escape ≠ 'n')
    (hfirst : ∀ ch ∈ closing.toList.head?, ch ≠ escape ∧ ch ≠ 'n') (text rest : String)
    (hc : c.rest = (written opening closing escape text ++ rest).toList) :
    let d := c.skip (written opening closing escape text).toList.length
    (quoted opening closing (some escape)).read c = .ok (some text) d ∧ d.rest = rest.toList ∧
      ∀ rounds, c.rest.length < rounds →
        Cursor.inChunks closing (some escape) rounds "" (c.skip opening.toList.length) =
          some (.ok text d) := by
  intro d
  have hbegin : closing.toList.head? ≠ some escape := fun h => (hfirst escape h).1 rfl
  have hplain : ∀ ch, ch = escape ∨ closing.toList.head? = some ch → Scan.meaning ch = ch := by
    rintro ch (rfl | hch)
    · exact Scan.meaning_of_ne hescape
    · exact Scan.meaning_of_ne (hfirst ch hch).2
  have hbehind : (c.skip opening.toList.length).rest =
      Scan.quote closing.toList escape text.toList ++ (closing.toList ++ rest.toList) := by
    rw [Cursor.rest_skip, hc, written]
    simp
  have hmodes (cs : List Char) : Scan.takeUntil closing.toList (some escape) .fresh cs =
      Scan.plainUntil closing.toList (some escape) cs :=
    Scan.takeUntil_eq_plainUntil (by rintro e ⟨⟩; exact hbegin) (by decide) cs
  have hscan := Scan.plainUntil_quote (fun hnil => hclosing (String.toList_eq_nil_iff.1 hnil))
    hbegin hplain text.toList rest.toList
  rw [← hmodes, ← hbehind] at hscan
  have hread : (c.skip opening.toList.length).takeUntil closing (some escape) = .ok text d := by
    rw [Cursor.takeUntil_of_some hscan, String.ofList_toList, Cursor.skip_add]
    congr 2
    simp [written]
  refine ⟨?_, ?_, fun rounds hrounds => ?_⟩
  · rw [read_quoted_of_opening hopening (by rw [hc, written]; simp [List.append_assoc])]
    simp only [Functor.map, EStateM.map, hread]
  · rw [Cursor.rest_skip, hc, String.toList_append, List.drop_left]
  · have hfewer : (c.skip opening.toList.length).rest.length < rounds := by
      rw [Cursor.rest_skip, List.length_drop]
      omega
    rw [Cursor.inChunks_eq hfewer, Cursor.addUntil_empty, hread]

/-- A comment with a newline, an escape before the letter for a newline, and the whole closing
delimiter in it, in front of another closing delimiter. -/
theorem read_written_comment :
    let text := "a\n\\n*/é"
    let c : Cursor := .ofString "/*a\n\\\\n\\*/é*/*/"
    "/*" ≠ "" ∧ "*/" ≠ "" ∧ '\\' ≠ 'n' ∧ (∀ ch ∈ "*/".toList.head?, ch ≠ '\\' ∧ ch ≠ 'n') ∧
      c.rest = (written "/*" "*/" '\\' text ++ "*/").toList ∧
      ∃ d, (quoted "/*" "*/" (some '\\')).read c = .ok (some text) d ∧ d.rest = "*/".toList := by
  intro text c
  have hfirst : ∀ ch ∈ "*/".toList.head?, ch ≠ '\\' ∧ ch ≠ 'n' := by
    rintro ch ⟨⟩
    decide
  have hc : c.rest = (written "/*" "*/" '\\' text ++ "*/").toList := by decide +kernel
  obtain ⟨hread, hrest, -⟩ :=
    read_written (by decide) (by decide) (by decide) hfirst text "*/" hc
  exact ⟨by decide, by decide, by decide, hfirst, hc, _, hread, hrest⟩

end Recognizer

end Descent
