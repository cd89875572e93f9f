import Descent.Proofs.Skipped

/-!
# What reading passes over

A recognizer or a form passes over what it has read, or it stays where it was. What it knows of a
pattern is only a `Search`, so this holds whatever engine stands behind the patterns. The token of a
form covers what was passed over, unless an adjustment moves it. An engine that looks for the first
match in all of the text ahead (`Pattern.leftmost`) reads the same as one that looks for a match
here.

* `Pattern.takePattern_leftmost`: a match further on is none.
* `Recognizer.read_pattern_eq`: staying is returning to where the cursor was.
* `TokenForm.covers_of_readWith`: a token covers what was passed over.
* `consumes_or_stays`: all of this for every recognizer and every form.
* `token_uncovered`: what an adjustment that turns spans round, or a bookmark of another text, does
  to the span of a token.
-/
namespace Descent

open Cursor

/-! ## Searches -/

namespace Pattern

/-- Where the first match of the pattern lies, the preferred one of those that start there. Further
on the pattern is matched as if the text began there. -/
def findFirst (p : Pattern) (cs : List Char) : Option (Nat × Nat) :=
  match p.length? cs with
  | some n => some (0, n)
  | none =>
    match cs with
    | [] => none
    | _ :: cs => (p.findFirst cs).map fun (start, stop) => (start + 1, stop + 1)

theorem findFirst_within (p : Pattern) {cs : List Char} {start stop : Nat}
    (h : p.findFirst cs = some (start, stop)) : start ≤ stop ∧ stop ≤ cs.length := by
  fun_induction findFirst p cs generalizing start stop with
  | case1 cs n hn =>
    cases h
    exact ⟨Nat.zero_le _, length?_le hn⟩
  | case2 => cases h
  | case3 c cs _ ih =>
    simp only [Option.map_eq_some_iff, Prod.mk.injEq, Prod.exists] at h
    obtain ⟨i, j, hij, rfl, rfl⟩ := h
    obtain ⟨hle, hlength⟩ := ih hij
    exact ⟨Nat.succ_le_succ hle, Nat.succ_le_succ hlength⟩

/-- The search for the first match of a pattern. -/
def leftmost (p : Pattern) : Search where
  find := p.findFirst
  within := p.findFirst_within

/-- The first match begins at once where there is one that does. -/
theorem findFirst_eq_zero_iff (p : Pattern) (cs : List Char) (n : Nat) :
    p.findFirst cs = some (0, n) ↔ p.length? cs = some n := by
  unfold findFirst
  cases p.length? cs with
  | some m => simp
  | none => cases cs <;> simp

/-- A match further on is none. -/
theorem takePattern_leftmost (p : Pattern) (c : Cursor) :
    c.takePattern p.leftmost = c.takePattern p.search := by
  unfold takePattern
  simp only [leftmost, search]
  cases hlength : p.length? c.rest with
  | some n =>
    rw [(p.findFirst_eq_zero_iff _ n).2 hlength]
    rfl
  | none =>
    simp only [Option.map_none]
    split
    · next n hfound =>
      rw [p.findFirst_eq_zero_iff, hlength] at hfound
      cases hfound
    · rfl

end Pattern

variable {c : Cursor}

/-! ## Recognizers -/

namespace Recognizer

/-- Reads the match that a search finds here. If there is none, or an empty one, the cursor returns
to its bookmark. -/
def readOrReturn (search : Search) : Reading (Option String) := fun c =>
  match c.takePattern search with
  | (some text, d) => if text.isEmpty then .ok none (d.goTo c.bookmark) else .ok (some text) d
  | (none, d) => .ok none (d.goTo c.bookmark)

/-- A cursor that has counted what lies behind it is found again from its bookmark. -/
theorem read_pattern_eq (hc : c.Sound) (search : Search) :
    (pattern search).read c = readOrReturn search c := by
  unfold readOrReturn
  simp only [read]
  rcases takePattern_cases search c with hnone | ⟨n, -, hfound⟩
  · rw [hnone]
    simp only [hc.goTo_bookmark rfl]
  · rw [hfound]
    simp only [hc.goTo_bookmark (text_skip c n)]

end Recognizer

/-! ## Forms -/

namespace TokenForm

variable {form : TokenForm}

/-- A token of the form was read from one cursor to another. -/
structure Covers (form : TokenForm) (c d : Cursor) (t : Token) : Prop where
  /-- The span goes from the one to the other when the adjustments get the token. -/
  made : ∃ text, Adjustment.applyAll form.adjustments
    ⟨form.kind, .text text, ⟨c.position, d.position⟩⟩ = .ok t
  /-- If they do not move it, so many characters were passed over as the span is long. -/
  passed : (∀ a ∈ form.adjustments, a.KeepsSpan) →
    t.span = ⟨c.position, d.position⟩ ∧ d = c.skip t.span.length
  /-- These characters are what the span covers of the text. -/
  shown : (∀ a ∈ form.adjustments, a.KeepsSpan) → c.Sound →
    c.rest = t.span.slice c.text ++ d.rest

theorem covers_of_token {d : Cursor} {text : String} {t : Token} (hd : Reaches 1 c d)
    (ht : form.token text c d = .ok t) : form.Covers c d t := by
  have hspan (hform : ∀ a ∈ form.adjustments, a.KeepsSpan) : t.span = ⟨c.position, d.position⟩ :=
    Adjustment.span_of_applyAll hform ht
  obtain ⟨n, -, hn, rfl⟩ := hd
  have hlength : (Span.mk c.position (c.skip n).position).length = n := by
    rw [Span.length, offset_skip hn, Nat.add_sub_cancel_left]
  refine ⟨⟨text, ht⟩, fun hform => ⟨hspan hform, ?_⟩, fun hform hc => ?_⟩
  · rw [hspan hform, hlength]
  · obtain ⟨-, hrest⟩ := hc.splits
    rw [hspan hform, Span.slice, hlength, ← hrest, rest_skip, List.take_append_drop]

theorem covers_of_readWith {rs : List Recognizer} {d : Cursor} {t : Token}
    (ht : form.readWith rs c = .ok (some t) d) : form.Covers c d t := by
  induction rs with
  | nil => cases ht
  | cons r rs ih =>
    have hr := r.moved_read c
    rw [readWith_cons] at ht
    cases hread : r.read c with
    | error e d' => rw [hread] at ht; cases ht
    | ok found d' =>
      rw [hread] at hr ht
      cases found with
      | none => obtain rfl : d' = c := hr; exact ih ht
      | some text =>
        simp only at ht
        split at ht <;> cases ht
        next htoken => exact covers_of_token hr htoken

/-- The operation passes over a character or more, which are what its token covers, or leaves the
cursor alone. -/
def Settles (form : TokenForm) (c : Cursor) (x : Reading (Option Token)) : Prop :=
  Moved c (x c) ∧ ∀ t d, x c = .ok (some t) d → form.Covers c d t

theorem settles_read (form : TokenForm) (c : Cursor) : form.Settles c form.read :=
  ⟨form.moved_readWith _ c, fun _ _ ht => covers_of_readWith ht⟩

end TokenForm

/-- A recognizer that reads a text has passed over a character or more, and so has a form that reads
a token: just what the span of the token covers, unless an adjustment moves that. If nothing is read
the cursor is the same as before. This holds of every recognizer and every form at any cursor,
whatever finds the matches of the patterns. A cursor that has counted what lies behind it stays by
returning to its bookmark. -/
theorem consumes_or_stays (c : Cursor) :
    (∀ r : Recognizer, Moved c (r.read c)) ∧ (∀ form : TokenForm, form.Settles c form.read) ∧
      (c.Sound → ∀ search : Search,
        (Recognizer.pattern search).read c = Recognizer.readOrReturn search c) :=
  ⟨fun r => r.moved_read c, fun form => form.settles_read c,
    fun hc search => Recognizer.read_pattern_eq hc search⟩

/-- A digit that comes later, a pattern that matches nothing, no text, and the end of a line. -/
def lineEnd : TokenForm where
  kind := "end"
  recognizers := [.pattern (Pattern.literal '7' []).leftmost,
    .pattern (Pattern.repeated .anyNumber true (.literal 'x' [])).leftmost, .literals ["", "é\n"]]
  adjustments := [.custom fun t => { t with kind := "line" }]

/-- The digit is found two characters on and is no match. The last recognizer reads two characters,
and the second line is left. -/
theorem consumes_or_stays_lineEnd :
    let c : Cursor := .ofString "é\n7"
    c.Sound ∧ (∀ a ∈ lineEnd.adjustments, a.KeepsSpan) ∧
      (Pattern.literal '7' []).leftmost.find c.rest = some (2, 3) ∧
      ∃ t d, lineEnd.read c = .ok (some t) d ∧ Reaches 1 c d ∧
        t.span = ⟨.start, ⟨2, 2, 1⟩⟩ ∧ c.rest = t.span.slice c.text ++ ['7'] := by
  intro c
  have hc : c.Sound := sound_ofString _
  have hkeeps : ∀ a ∈ lineEnd.adjustments, a.KeepsSpan := by simp [lineEnd, Adjustment.KeepsSpan]
  obtain ⟨-, hforms, -⟩ := consumes_or_stays c
  obtain ⟨hmoved, hcovers⟩ := hforms lineEnd
  obtain ⟨t, hread⟩ : ∃ t, lineEnd.read c = .ok (some t) (c.skip 2) := ⟨_, rfl⟩
  rw [hread] at hmoved
  have hcover := hcovers t (c.skip 2) hread
  exact ⟨hc, hkeeps, rfl, t, c.skip 2, hread, hmoved, (hcover.passed hkeeps).1,
    hcover.shown hkeeps hc⟩

/-- A word whose span is turned round. -/
def turnedWord : TokenForm where
  kind := "word"
  recognizers := [.literals ["a"]]
  adjustments := [.turned]

/-- The last letter of three. -/
def letterB : TokenForm where
  kind := "word"
  recognizers := [.literals ["b"]]

/-- An adjustment can keep a token from covering what was passed over: the word is read from the
start of the text on, and its span stops there. And a cursor that has returned to a bookmark of
another text reads the third letter for the second, as that is where it has counted to. -/
theorem token_uncovered :
    (¬ ∀ (form : TokenForm) (c d : Cursor) t, c.Sound → form.read c = .ok (some t) d →
      t.span = ⟨c.position, d.position⟩ ∧ d = c.skip t.span.length) ∧
    ¬ ∀ (form : TokenForm) (c d : Cursor) t, (∀ a ∈ form.adjustments, a.KeepsSpan) →
      form.read c = .ok (some t) d → c.rest = t.span.slice c.text ++ d.rest := by
  constructor <;> intro hall
  · have hread : turnedWord.read (.ofString "a") =
        .ok (some ⟨"word", .text "a", ⟨⟨1, 1, 2⟩, .start⟩⟩) ((Cursor.ofString "a").skip 1) := rfl
    have hspan := (hall turnedWord _ _ _ (sound_ofString "a") hread).1
    exact absurd hspan (by decide)
  · let c : Cursor := (Cursor.ofString "aab").goTo ((Cursor.ofString "é").skip 1).bookmark
    have hread : letterB.read c =
        .ok (some ⟨"word", .text "b", ⟨⟨1, 1, 2⟩, ⟨2, 1, 3⟩⟩⟩) (c.skip 1) := rfl
    have hshown := hall letterB c _ _ (by simp [letterB]) hread
    exact absurd hshown (by decide)

end Descent
