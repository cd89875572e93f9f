import Descent.Source.Cursor

/-!
# Recognizers

A `Recognizer` reads the text of one token where the cursor stands, or leaves the cursor alone.

* `sorted_by_length`: a recognizer for literals tries longer ones first, so that none hides one
  that it begins.
* `mem_sorted_iff`: it tries all of them but the empty one.
-/
namespace Descent

inductive Recognizer where
  /-- Text between two delimiters. Once the opening one is read the closing one has to come. -/
  | quoted (opening closing : String) (escape : Option Char)
  /-- What is found here, if it is not empty. -/
  | pattern (search : Search)
  /-- One of the characters. -/
  | oneOf (chars : String)
  /-- The first of the texts that stands next. -/
  | literals (texts : List String)

namespace Recognizer

/-- A recognizer for any of the texts, longer ones first and otherwise in the given order. -/
def ofLiterals (texts : List String) : Recognizer :=
  .literals ((texts.filter fun t => !t.isEmpty).mergeSort fun s t => t.length ≤ s.length)

theorem mem_sorted_iff {texts sorted : List String} (h : ofLiterals texts = .literals sorted)
    {t : String} : t ∈ sorted ↔ t ∈ texts ∧ t ≠ "" := by
  cases h
  simp [List.mem_mergeSort]

theorem sorted_by_length {texts sorted : List String} (h : ofLiterals texts = .literals sorted) :
    sorted.Pairwise fun s t => t.length ≤ s.length := by
  cases h
  refine List.Pairwise.imp (fun h => of_decide_eq_true h) (List.pairwise_mergeSort ?_ ?_ _)
  · intro a b c hab hbc
    simp only [decide_eq_true_eq] at hab hbc ⊢
    omega
  · intro a b
    simp only [Bool.or_eq_true, decide_eq_true_eq]
    omega

/-- The first text that stands next, and the cursor behind it. -/
def readFirst : List String → Cursor → Option (String × Cursor)
  | [], _ => none
  | text :: texts, c =>
    match c.takeLiteral text with
    | (true, c) => some (text, c)
    | (false, _) => readFirst texts c

def read : Recognizer → Reading (Option String)
  | quoted opening closing escape => fun c =>
    match c.takeLiteral opening with
    | (true, c) => (some <$> Cursor.takeUntil closing escape) c
    | (false, c) => .ok none c
  | pattern search => fun c =>
    match c.takePattern search with
    | (some text, after) => if text.isEmpty then .ok none c else .ok (some text) after
    | (none, _) => .ok none c
  | oneOf chars => fun c =>
    match c.rest with
    | ch :: _ => if chars.toList.contains ch then .ok (some ch.toString) (c.skip 1) else .ok none c
    | [] => .ok none c
  | literals texts => fun c =>
    match readFirst texts c with
    | some (text, c) => .ok (some text) c
    | none => .ok none c

end Recognizer

end Descent
