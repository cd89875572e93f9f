import Descent.Lexing.Lexer

/-!
# How far reading goes

Reading passes over some of the characters ahead and does nothing else to a cursor. `Reaches` says
how many at least; `Sound` says that a cursor has counted what lies behind it, which is what makes a
bookmark good for a return.

* `Recognizer.moved_read`, `Lexer.moved_readWith`: what finds nothing stays, and what finds a token
  or fails passes over a character.
* `Lexer.outcome_read`: so does the whole lexer, and it is finished only at the end of the text.
* `Cursor.Sound.goTo_bookmark`: a sound cursor can be found again from its bookmark.
-/
namespace Descent

/-- Two operations in a row, on a given state. -/
theorem bind_apply {ε σ α β : Type} (x : EStateM ε σ α) (f : α → EStateM ε σ β) (s : σ) :
    (x >>= f) s =
      match x s with
      | .ok a s' => f a s'
      | .error e s' => .error e s' := rfl

/-- What two operations in a row have given was given by the second one. -/
theorem ok_of_bind {ε σ α β : Type} {x : EStateM ε σ α} {f : α → EStateM ε σ β} {s s' : σ} {b : β}
    (h : (x >>= f) s = .ok b s') : ∃ a t, x s = .ok a t ∧ f a t = .ok b s' := by
  rw [bind_apply] at h
  cases hx : x s with
  | ok a t => rw [hx] at h; exact ⟨a, t, rfl, h⟩
  | error e t => rw [hx] at h; cases h

theorem pure_apply {ε σ α : Type} (a : α) (s : σ) :
    (pure a : EStateM ε σ α) s = .ok a s := rfl

theorem get_apply {ε σ : Type} (s : σ) : (get : EStateM ε σ σ) s = .ok s s := rfl

namespace Cursor

/-! ## Distance -/

/-- `d` lies ahead of `c`, by at least `least` characters. -/
def Reaches (least : Nat) (c d : Cursor) : Prop :=
  ∃ n, least ≤ n ∧ n ≤ c.rest.length ∧ d = c.skip n

theorem reaches_refl (c : Cursor) : Reaches 0 c c :=
  ⟨0, Nat.le_refl 0, Nat.zero_le _, (skip_zero c).symm⟩

theorem reaches_skip {c : Cursor} {n : Nat} (h : n ≤ c.rest.length) : Reaches n c (c.skip n) :=
  ⟨n, Nat.le_refl n, h, rfl⟩

theorem Reaches.mono {j k : Nat} {c d : Cursor} (h : Reaches k c d) (hjk : j ≤ k) :
    Reaches j c d := by
  obtain ⟨n, hk, hn, rfl⟩ := h
  exact ⟨n, Nat.le_trans hjk hk, hn, rfl⟩

theorem Reaches.trans {j k : Nat} {c d e : Cursor} (h₁ : Reaches j c d) (h₂ : Reaches k d e) :
    Reaches (j + k) c e := by
  obtain ⟨n, hj, hn, rfl⟩ := h₁
  obtain ⟨m, hk, hm, rfl⟩ := h₂
  rw [rest_skip, List.length_drop] at hm
  exact ⟨n + m, by omega, by omega, skip_add c n m⟩

theorem Reaches.offset_le {k : Nat} {c d : Cursor} (h : Reaches k c d) :
    c.position.offset + k ≤ d.position.offset := by
  obtain ⟨n, hk, hn, rfl⟩ := h
  rw [offset_skip hn]; omega

theorem Reaches.length_le {k : Nat} {c d : Cursor} (h : Reaches k c d) :
    d.rest.length + k ≤ c.rest.length := by
  obtain ⟨n, hk, hn, rfl⟩ := h
  rw [rest_skip, List.length_drop]; omega

theorem Reaches.atEnd_eq_false {c d : Cursor} (h : Reaches 1 c d) : c.atEnd = false := by
  have := h.length_le
  cases hrest : c.rest with
  | nil => simp [hrest] at this
  | cons => simp [atEnd, hrest]

theorem Reaches.bookmark_ne {c d : Cursor} (h : Reaches 1 c d) : d.bookmark ≠ c.bookmark := by
  intro he
  have hp : d.position = c.position := congrArg Bookmark.position he
  have := h.offset_le
  rw [hp] at this; omega

/-! ## Sound cursors -/

/-- What lies behind the cursor is the first part of its text, and counted right. -/
def Sound (c : Cursor) : Prop :=
  ∃ behind, c.text = behind ++ c.rest ∧ c.byte = Scan.utf8Length behind ∧
    c.position = Position.start.after behind

theorem sound_ofString (text : String) : (ofString text).Sound := ⟨[], rfl, rfl, rfl⟩

theorem Sound.skip {c : Cursor} (h : c.Sound) (n : Nat) : (c.skip n).Sound := by
  obtain ⟨behind, ht, hb, hp⟩ := h
  refine ⟨behind ++ c.rest.take n, ?_, ?_, ?_⟩
  · rw [text_skip, rest_skip, ht, List.append_assoc, List.take_append_drop]
  · simp only [Cursor.skip, hb, Scan.utf8Length_append]
  · simp only [Cursor.skip, hp, Position.after_append]

theorem Sound.reaches {c d : Cursor} {k : Nat} (h : c.Sound) (hd : Reaches k c d) : d.Sound := by
  obtain ⟨n, -, -, rfl⟩ := hd
  exact h.skip n

/-- The offset splits the text into what the cursor has counted and what is left. -/
theorem Sound.splits {c : Cursor} (h : c.Sound) :
    c.byte = Scan.utf8Length (c.text.take c.position.offset) ∧
      c.rest = c.text.drop c.position.offset := by
  obtain ⟨behind, ht, hb, hp⟩ := h
  have hoffset : c.position.offset = behind.length := by simp [hp, Position.start]
  rw [hoffset, ht, List.take_left, List.drop_left]
  exact ⟨hb, rfl⟩

theorem Sound.position_of_atEnd {c : Cursor} (h : c.Sound) (hend : c.atEnd = true) :
    c.position = Position.start.after c.text := by
  obtain ⟨behind, ht, -, hp⟩ := h
  rw [hp, ht, List.isEmpty_iff.1 hend, List.append_nil]

theorem Reaches.text_eq {c d : Cursor} {k : Nat} (h : Reaches k c d) : d.text = c.text := by
  obtain ⟨n, -, -, rfl⟩ := h
  exact text_skip c n

theorem Sound.goTo_bookmark {c d : Cursor} (h : c.Sound) (ht : d.text = c.text) :
    d.goTo c.bookmark = c := by
  obtain ⟨behind, hc, hb, hp⟩ := h
  cases c
  simp only [goTo, bookmark] at *
  rw [ht, hc, hb, Scan.dropBytes_utf8Length_append]

/-- A sound cursor and its bookmark agree on what is left. -/
theorem Sound.dropBytes_byte {c : Cursor} (h : c.Sound) : Scan.dropBytes c.byte c.text = c.rest :=
  congrArg Cursor.rest (h.goTo_bookmark (d := c) rfl)

/-! ## What an operation may do -/

/-- What finds nothing stays; what finds something or fails passes over a character. -/
def Moved {α : Type} (c : Cursor) : EStateM.Result ReadError Cursor (Option α) → Prop
  | .ok none d => d = c
  | .ok (some _) d | .error _ d => Reaches 1 c d

/-- Where the text that was taken is not empty, a character was passed over. -/
theorem reaches_of_taken {c : Cursor} {n : Nat} (hn : n ≤ c.rest.length)
    (h : ¬ (String.ofList (c.rest.take n)).isEmpty = true) : Reaches 1 c (c.skip n) := by
  have hpos : 1 ≤ n := by
    rcases Nat.eq_zero_or_pos n with rfl | h'
    · simp at h
    · exact h'
  exact (reaches_skip hn).mono hpos

theorem takeLiteral_cases (text : String) (c : Cursor) :
    c.takeLiteral text = (false, c) ∨ ∃ d, c.takeLiteral text = (true, d) ∧ Reaches 1 c d := by
  unfold takeLiteral
  split
  · next h =>
    right
    obtain ⟨hne, hpre⟩ := Scan.literal_iff.1 h
    have hpos : 0 < text.toList.length := List.length_pos_iff.2 hne
    exact ⟨_, rfl, (reaches_skip hpre.length_le).mono hpos⟩
  · left; rfl

/-- Whatever is searched for, what is taken stands next. -/
theorem takePattern_cases (search : Search) (c : Cursor) :
    c.takePattern search = (none, c) ∨
      ∃ n, n ≤ c.rest.length ∧
        c.takePattern search = (some (String.ofList (c.rest.take n)), c.skip n) := by
  unfold takePattern
  split
  · next n hfound => exact .inr ⟨n, (search.within hfound).2, rfl⟩
  · exact .inl rfl

/-- Reading up to a terminator goes ahead, whether the terminator comes or not. -/
theorem takeUntil_reaches (terminator : String) (escape : Option Char) (c : Cursor) :
    (∃ s d, takeUntil terminator escape c = .ok s d ∧ Reaches 0 c d) ∨
      ∃ e d, takeUntil terminator escape c = .error e d ∧ Reaches 0 c d := by
  unfold takeUntil
  split
  · next text n h =>
    exact Or.inl ⟨_, _, rfl, (reaches_skip (Scan.takeUntil_le h)).mono (Nat.zero_le n)⟩
  · exact Or.inr ⟨_, _, rfl, (reaches_skip (Nat.le_refl _)).mono (Nat.zero_le _)⟩

end Cursor

open Cursor

/-! ## Tokens -/

namespace Recognizer

theorem moved_readFirst (texts : List String) (c : Cursor) {text : String} {d : Cursor}
    (h : readFirst texts c = some (text, d)) : Reaches 1 c d := by
  induction texts with
  | nil => cases h
  | cons t ts ih =>
    unfold readFirst at h
    rcases takeLiteral_cases t c with hl | ⟨d', hl, hd⟩
    · rw [hl] at h; exact ih h
    · rw [hl] at h; cases h; exact hd

theorem moved_read (r : Recognizer) (c : Cursor) : Moved c (r.read c) := by
  cases r with
  | quoted opening closing escape =>
    simp only [read]
    rcases takeLiteral_cases opening c with hl | ⟨d, hl, hd⟩
    · rw [hl]; rfl
    · rw [hl]
      -- The text between the delimiters comes on top of the opening one.
      rcases takeUntil_reaches closing escape d with ⟨s, e, hu, he⟩ | ⟨x, e, hu, he⟩
      · simp only [Functor.map, EStateM.map, hu]; exact hd.trans he
      · simp only [Functor.map, EStateM.map, hu]; exact hd.trans he
  | pattern search =>
    simp only [read]
    rcases takePattern_cases search c with hnone | ⟨n, hn, hfound⟩
    · rw [hnone]; rfl
    · rw [hfound]
      simp only
      split
      · rfl
      · next hne => exact reaches_of_taken hn hne
  | oneOf chars =>
    simp only [read]
    split
    · next ch rest hr =>
      split
      · exact reaches_skip (by rw [hr]; simp)
      · rfl
    · rfl
  | literals texts =>
    simp only [read]
    split
    · next h => exact moved_readFirst texts c h
    · rfl

end Recognizer

namespace TokenForm

variable (form : TokenForm)

theorem readWith_cons (r : Recognizer) (rs : List Recognizer) (c : Cursor) :
    form.readWith (r :: rs) c =
      match r.read c with
      | .error e d => .error e d
      | .ok none d => form.readWith rs d
      | .ok (some text) d =>
        match form.token text c d with
        | .ok t => .ok (some t) d
        | .error e => .error e d := by
  simp only [readWith, bind_apply, get_apply]
  cases r.read c with
  | error e d => rfl
  | ok found d =>
    cases found with
    | none => rfl
    | some text => simp only [bind_apply, get_apply]; cases form.token text c d <;> rfl

/-- One recognizer after the other is tried from the same cursor. -/
theorem moved_readWith (rs : List Recognizer) (c : Cursor) : Moved c (form.readWith rs c) := by
  induction rs with
  | nil => rfl
  | cons r rs ih =>
    have hr := r.moved_read c
    rw [readWith_cons]
    cases hread : r.read c with
    | error e d => rw [hread] at hr; exact hr
    | ok found d =>
      rw [hread] at hr
      cases found with
      | none => obtain rfl : d = c := hr; exact ih
      | some text => simp only; split <;> exact hr

end TokenForm

namespace Lexer

theorem moved_readWith (forms : List TokenForm) (c : Cursor) : Moved c (readWith forms c) := by
  induction forms with
  | nil => rfl
  | cons form forms ih =>
    have hf : Moved c (form.read c) := form.moved_readWith _ c
    simp only [readWith, bind_apply]
    cases h : form.read c with
    | error e d => rw [h] at hf; exact hf
    | ok found d =>
      rw [h] at hf
      cases found with
      | none => obtain rfl : d = c := hf; exact ih
      | some t => exact hf

/-- What the reading of the next token may do: it ends at the end of the text, or it passes over a
character. -/
def Outcome (c : Cursor) : EStateM.Result ReadError Cursor Lexed → Prop
  | .ok .finished d => Reaches 0 c d ∧ d.atEnd = true
  | .ok (.token _) d | .ok (.stray _) d | .error _ d => Reaches 1 c d

theorem Outcome.of_reaches {c d : Cursor} {k : Nat} (h : Reaches k c d)
    {r : EStateM.Result ReadError Cursor Lexed} (hr : Outcome d r) : Outcome c r := by
  unfold Outcome at *
  split at hr
  · exact ⟨(h.trans hr.1).mono (Nat.zero_le _), hr.2⟩
  · exact (h.trans hr).mono (Nat.le_add_left 1 k)
  · exact (h.trans hr).mono (Nat.le_add_left 1 k)
  · exact (h.trans hr).mono (Nat.le_add_left 1 k)

theorem outcome_readStray (lexer : Lexer) {c : Cursor} (h : c.atEnd = false) :
    Outcome c (lexer.readStray c) := by
  unfold readStray
  split
  · next hr => simp [atEnd, hr] at h
  · next ch rest hr =>
    have hs : Reaches 1 c (c.skip 1) := reaches_skip (by rw [hr]; simp)
    simp only
    split <;> exact hs

theorem outcome_readWithin (lexer : Lexer) (fuel : Nat) (c : Cursor) (h : c.rest.length ≤ fuel) :
    Outcome c (lexer.readWithin fuel c) := by
  induction fuel generalizing c with
  | zero =>
    have hr : c.rest = [] := List.length_eq_zero_iff.1 (Nat.le_zero.1 h)
    exact ⟨reaches_refl c, by simp [atEnd, hr]⟩
  | succ fuel ih =>
    simp only [readWithin, bind_apply, get_apply]
    cases he : c.atEnd with
    | true => exact ⟨reaches_refl c, he⟩
    | false =>
      have hm := moved_readWith lexer.forms c
      simp only [Bool.false_eq_true, if_false, bind_apply]
      cases hw : readWith lexer.forms c with
      | error e d => rw [hw] at hm; exact hm
      | ok found d =>
        rw [hw] at hm
        cases found with
        | none => obtain rfl : d = c := hm; exact outcome_readStray lexer he
        | some t =>
          have hd : Reaches 1 c d := hm
          simp only
          split
          · have := hd.length_le
            exact Outcome.of_reaches hd (ih d (by omega))
          · exact hd

theorem outcome_read (lexer : Lexer) (c : Cursor) : Outcome c (lexer.read c) :=
  outcome_readWithin lexer _ c (Nat.le_refl _)

theorem read_of_atEnd (lexer : Lexer) {c : Cursor} (h : c.atEnd = true) :
    lexer.read c = .ok .finished c := by
  have hr : c.rest = [] := List.isEmpty_iff.1 h
  simp only [read, hr, List.length_nil]
  rfl

end Lexer

end Descent
