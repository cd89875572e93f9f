import Descent.Proofs.Consuming
import Descent.Proofs.Delimiting

/-!
# Lists that go round for ever

A repetition refuses a step that reads nothing. A list does not ask what its elements and separators
read: its loop goes on for as long as there is another element with a separator behind it. Each of
these rounds takes the look at the next token on by as much as it consumed, and the text has an end,
so a loop without one comes to a round that consumed nothing. Behind that round the stream looks as
it did before, and the same round follows again and again.

The loop of the model is given a number of steps. `Segment.listWithin` runs a list with any other
number, to say that a list which runs out of steps runs out of every number of them.

* `Segment.Round`, `Segment.Rounds`: an element with a separator behind it, and several in a row.
* `Rounds.sees_le`, `Rounds.exists_of_idle`: rounds that consume something, and one that does not.
* `valueOf_listLoop_eq_endless_iff`: a loop runs out of steps if there are as many rounds.
* `delimited_ends_iff`: which lists end.
-/
namespace Descent

open Descent.Stream

variable {lexer : Lexer} {text : String} {g : Grammar} {s t u v w : Stream lexer}
  {opening closing separator element : Segment} {k m n : Nat}

namespace Segment

/-- An element that begins in `s` and a separator behind it match, and consume this much. -/
def Round (g : Grammar) (separator element : Segment) (s : Stream lexer) (consumed : Nat)
    (t : Stream lexer) : Prop :=
  ∃ o v p, element.Matches g s o v ∧ separator.Matches g v p t ∧
    consumed = o.progress + p.progress

/-- So many rounds in a row. -/
inductive Rounds (g : Grammar) (separator element : Segment) :
    Stream lexer → Nat → Stream lexer → Prop
  | none {s : Stream lexer} : Rounds g separator element s 0 s
  | more {s t u : Stream lexer} {k n : Nat} (h : Round g separator element s k t)
    (hrest : Rounds g separator element t n u) : Rounds g separator element s (n + 1) u

/-- A list that begins in `s` is opened, and in `t` it is not closed at once. -/
def Unclosed (g : Grammar) (opening closing : Segment) (s t : Stream lexer) : Prop :=
  (∃ o, opening.Matches g s o t) ∧ ∃ c, closing.Fails g t c

/-- A list that begins in `s` comes to a round that consumes nothing. -/
def Circles (g : Grammar) (opening closing separator element : Segment) (s : Stream lexer) : Prop :=
  ∃ v, Unclosed g opening closing s v ∧
    ∃ n w t, Rounds g separator element v n w ∧ Round g separator element w 0 t

/-- From all streams over the text its runs come to an end. -/
def EndsEverywhere (g : Grammar) (lexer : Lexer) (text : String) (p : Segment) : Prop :=
  ∀ s : Stream lexer, s.Reachable text → valueOf (p.run g s) ≠ .error .endless

/-! ## One round -/

namespace Round

theorem reachable (h : Round g separator element s k t) (hs : s.Reachable text) :
    t.Reachable text := by
  obtain ⟨o, v, p, helement, hseparator, -⟩ := h
  exact run_reachable (run_reachable hs helement.1) hseparator.1

theorem of_looksLike (h : Round g separator element t k v) (hst : s.LooksLike t) :
    ∃ u, Round g separator element s k u ∧ u.LooksLike v := by
  obtain ⟨o, v', p, helement, hseparator, hk⟩ := h
  obtain ⟨u', helement', hsame⟩ := helement.of_looksLike hst
  obtain ⟨u, hseparator', hsame'⟩ := hseparator.of_looksLike (.of_same hsame)
  exact ⟨u, ⟨o, u', p, helement', hseparator', hk⟩, .of_same hsame'⟩

/-- A round takes the look on by at least what it consumed. -/
theorem sees_le (h : Round g separator element s k t) (hs : s.Reachable text) :
    s.sees + k ≤ t.sees := by
  obtain ⟨o, v, p, helement, hseparator, rfl⟩ := h
  have hv := run_reachable hs helement.1
  have ht := run_reachable hv hseparator.1
  have helementEnd := offset_of_match hs helement
  have hseparatorEnd := offset_of_match hv hseparator
  have := hv.offset_le_sees
  have := ht.offset_le_sees
  omega

/-- Behind a round that consumed nothing the stream looks as it did before. -/
theorem looksLike (h : Round g separator element s 0 t) (hs : s.Reachable text) :
    t.LooksLike s := by
  obtain ⟨o, v, p, helement, hseparator, hzero⟩ := h
  have hv := run_reachable hs helement.1
  have hbehind := looksLike_of_progress_eq_zero hv hseparator (by omega)
  exact hbehind.trans (looksLike_of_progress_eq_zero hs helement (by omega))

end Round

/-! ## Rounds in a row -/

namespace Rounds

theorem reachable (h : Rounds g separator element s n t) (hs : s.Reachable text) :
    t.Reachable text := by
  induction h with
  | none => exact hs
  | more h _ ih => exact ih (h.reachable hs)

theorem of_looksLike (h : Rounds g separator element t n v) (hst : s.LooksLike t) :
    ∃ u, Rounds g separator element s n u ∧ u.LooksLike v := by
  induction h generalizing s with
  | none => exact ⟨s, .none, hst⟩
  | more h _ ih =>
    obtain ⟨s', h', hlook⟩ := h.of_looksLike hst
    obtain ⟨u, hu, hend⟩ := ih hlook
    exact ⟨u, .more h' hu, hend⟩

theorem append (h : Rounds g separator element s m t) (h' : Rounds g separator element t n u) :
    Rounds g separator element s (n + m) u := by
  induction h with
  | none => exact h'
  | more h _ ih => exact .more h (ih h')

theorem exists_of_le (h : Rounds g separator element s n t) (hmn : m ≤ n) :
    ∃ u, Rounds g separator element s m u := by
  induction h generalizing m with
  | @none s =>
    obtain rfl : m = 0 := by omega
    exact ⟨s, .none⟩
  | @more s t u k n h _ ih =>
    cases m with
    | zero => exact ⟨s, .none⟩
    | succ m =>
      obtain ⟨v, hv⟩ := ih (Nat.le_of_succ_le_succ hmn)
      exact ⟨v, .more h hv⟩

/-- Every round consumes something, up to one that does not. -/
theorem sees_le (h : Rounds g separator element s n t) (hs : s.Reachable text) :
    (∃ k w x, Rounds g separator element s k w ∧ Round g separator element w 0 x) ∨
      s.sees + n ≤ t.sees := by
  induction h with
  | none => exact .inr (Nat.le_refl _)
  | @more s t u k n h hrest ih =>
    by_cases hk : k = 0
    · subst hk
      exact .inl ⟨0, s, t, .none, h⟩
    · rcases ih (h.reachable hs) with ⟨k', w, x, hw, hx⟩ | hle
      · exact .inl ⟨k' + 1, w, x, .more h hw, hx⟩
      · have := h.sees_le hs
        exact .inr (by omega)

/-- A round that consumes nothing is followed by itself. -/
theorem exists_of_idle (h : Round g separator element s 0 t) (hs : s.Reachable text) (n : Nat) :
    ∃ u, Rounds g separator element s n u := by
  induction n with
  | zero => exact ⟨s, .none⟩
  | succ n ih =>
    obtain ⟨u, hu⟩ := ih
    obtain ⟨v, hv, -⟩ := hu.of_looksLike (h.looksLike hs)
    exact ⟨v, .more h hv⟩

/-- There are more rounds than the text has characters left only if one of them consumes nothing,
and then there is no end of them. -/
theorem exists_iff (hs : s.Reachable text) (hn : text.toList.length < s.sees + n) :
    (∃ t, Rounds g separator element s n t) ↔
      ∃ k w x, Rounds g separator element s k w ∧ Round g separator element w 0 x := by
  constructor
  · rintro ⟨t, ht⟩
    rcases ht.sees_le hs with hidle | hle
    · exact hidle
    · have := (ht.reachable hs).sees_le
      omega
  · rintro ⟨k, w, x, hw, hx⟩
    obtain ⟨t, ht⟩ := exists_of_idle hx (hw.reachable hs) n
    exact (hw.append ht).exists_of_le (Nat.le_add_right n k)

theorem forall_iff (hs : s.Reachable text) : (∀ n, ∃ t, Rounds g separator element s n t) ↔
    ∃ k w x, Rounds g separator element s k w ∧ Round g separator element w 0 x := by
  constructor
  · intro h
    exact (exists_iff hs (by omega)).1 (h (text.toList.length + 1))
  · intro h n
    have henough : text.toList.length < s.sees + (n + (text.toList.length + 1)) := by omega
    obtain ⟨t, ht⟩ := (exists_iff hs henough).2 h
    exact ht.exists_of_le (Nat.le_add_right n _)

end Rounds

end Segment

open Segment

/-! ## The loop -/

theorem valueOf_bind_pure_eq_error {α β : Type} {x : Parse lexer α} {f : α → β} {e : Stop} :
    valueOf ((x >>= fun a => pure (f a)) s) = .error e ↔ valueOf (x s) = .error e := by
  rw [bind_apply]
  cases x s with
  | ok a t => constructor <;> intro h <;> cases h
  | error e' t => constructor <;> intro h <;> cases h <;> rfl

/-- The loop goes by a round with one step. -/
theorem listLoop_of_round (h : Round g separator element v k w) (closing : Segment)
    (hu : u.Reachable text) (huv : u.LooksLike v) (n : Nat) :
    ∃ u' items, u'.Reachable text ∧ u'.LooksLike w ∧
      listLoop g closing separator element (n + 1) u =
        (listLoop g closing separator element n >>=
          fun found => pure (items ++ found.1, found.2)) u' := by
  obtain ⟨o, x, p, helement, hseparator, -⟩ := h
  obtain ⟨u₁, hu₁, hsame, hloop⟩ := listLoop_of_match closing separator n hu huv helement
  obtain ⟨u₂, hu₂, hsame₂, hmore⟩ :=
    listRest_of_match closing element o n hu₁ (.of_same hsame) hseparator
  exact ⟨u₂, _, hu₂, .of_same hsame₂, hloop.trans hmore⟩

section

variable (hclosing : closing.EndsEverywhere g lexer text)
  (hseparator : separator.EndsEverywhere g lexer text)
  (helement : element.EndsEverywhere g lexer text)
include hclosing hseparator helement

/-- Where no round follows the loop ends, for its parts do. -/
theorem exists_round_of_endless (hu : u.Reachable text) (huv : u.LooksLike v)
    (h : valueOf (listLoop g closing separator element (n + 1) u) = .error .endless) :
    ∃ k w, Round g separator element v k w := by
  rcases run_cases g element v with ⟨o, x, hmatch⟩ | ⟨o, hfails⟩ | ⟨e, x, herror⟩
  · obtain ⟨u₁, hu₁, hsame, hloop⟩ := listLoop_of_match closing separator n hu huv hmatch
    have hlook : u₁.LooksLike x := .of_same hsame
    rw [hloop] at h
    rcases run_cases g separator x with ⟨p, w, hsep⟩ | ⟨p, hsep⟩ | ⟨e, y, herror⟩
    · exact ⟨_, w, o, x, p, hmatch, hsep, rfl⟩
    · obtain ⟨u₂, hu₂, -, hrest⟩ := listRest_of_fails closing element o n hu₁ hlook hsep
      rw [hrest, valueOf_bind_pure_eq_error] at h
      exact absurd h (hclosing u₂ hu₂)
    · obtain ⟨u₂, herror'⟩ := run_error_of_looksLike herror hlook
      rw [listRest, behindElement, bind_apply, herror'] at h
      cases h
      exact absurd (congrArg valueOf herror') (hseparator u₁ hu₁)
  · obtain ⟨position, message, t, hloop, -⟩ := listLoop_of_fails closing separator n hu huv hfails
    rw [hloop] at h
    cases h
  · obtain ⟨u₁, herror'⟩ := run_error_of_looksLike herror huv
    rw [listLoop, separatedElements_succ, bind_apply, required, bind_apply, herror'] at h
    cases h
    exact absurd (congrArg valueOf herror') (helement u hu)

/-- By induction on the steps: the loop runs out of them exactly if there are as many rounds. -/
theorem valueOf_listLoop_eq_endless_iff (hv : v.Reachable text) (hu : u.Reachable text)
    (huv : u.LooksLike v) (n : Nat) :
    valueOf (listLoop g closing separator element n u) = .error .endless ↔
      ∃ w, Rounds g separator element v n w := by
  induction n generalizing u v with
  | zero => exact ⟨fun _ => ⟨v, .none⟩, fun _ => rfl⟩
  | succ n ih =>
    constructor
    · intro h
      obtain ⟨k, w, hround⟩ := exists_round_of_endless hclosing hseparator helement hu huv h
      obtain ⟨u', items, hu', hlook, hloop⟩ := listLoop_of_round hround closing hu huv n
      rw [hloop, valueOf_bind_pure_eq_error, ih (hround.reachable hv) hu' hlook] at h
      obtain ⟨x, hx⟩ := h
      exact ⟨x, .more hround hx⟩
    · rintro ⟨x, hx⟩
      cases hx with
      | more hround hrest =>
        obtain ⟨u', items, hu', hlook, hloop⟩ := listLoop_of_round hround closing hu huv n
        rw [hloop, valueOf_bind_pure_eq_error]
        exact (ih (hround.reachable hv) hu' hlook).2 ⟨x, hrest⟩

end

/-- A loop that ends is not changed by more steps. -/
theorem separatedElements_of_le {closing separator element : Parse lexer Outcome}
    (h : valueOf (separatedElements closing separator element n s) ≠ .error .endless)
    (hnm : n ≤ m) :
    separatedElements closing separator element m s =
      separatedElements closing separator element n s := by
  induction n generalizing s m with
  | zero => exact absurd rfl h
  | succ n ih =>
    obtain ⟨m, rfl⟩ : ∃ i, m = i + 1 := ⟨m - 1, by omega⟩
    rw [separatedElements_succ] at h
    rw [separatedElements_succ, separatedElements_succ]
    rw [bind_apply] at h ⊢
    rw [bind_apply]
    cases hrequired : required element s with
    | error e t => rfl
    | ok o t =>
      rw [hrequired] at h
      simp only [behindElement, bind_apply] at h ⊢
      cases hsep : separator t with
      | error e u => rfl
      | ok p u =>
        rw [hsep] at h
        by_cases hm : p.isMatch = true
        · simp only [hm, if_true] at h ⊢
          rw [bind_apply, ih (fun hend => h ?_) (Nat.le_of_succ_le_succ hnm), ← bind_apply]
          exact valueOf_bind_pure_eq_error.2 hend
        · rw [Bool.not_eq_true] at hm
          simp only [hm, Bool.false_eq_true, if_false]

/-! ## The body -/

/-- What a list does if its loop may take as many steps as `count` says. -/
def countedBody (count : Parse lexer Nat)
    (opening closing separator element : Parse lexer Outcome) : Parse lexer Outcome := do
  let opened ← opening
  if opened.isMatch then
    if (← closing).isMatch then return .withData (.list [])
    else return listOutcome (← separatedElements closing separator element (← count))
  else return opened

theorem countedBody_steps (opening closing separator element : Parse lexer Outcome) :
    countedBody steps opening closing separator element =
      delimitedBody opening closing separator element :=
  (delimitedBody_eq opening closing separator element).symm

/-- The body of a list whose loop may take as many steps as `count` says. -/
abbrev countedList (g : Grammar) (count : Parse lexer Nat)
    (opening closing separator element : Segment) : Parse lexer Outcome :=
  countedBody count (opening.run g) (closing.run g) (separator.run g) (element.run g)

/-- A list that is opened and not closed at once goes into its loop. -/
theorem countedList_of_unclosed (h : Unclosed g opening closing s v) (count : Parse lexer Nat)
    (separator element : Segment) (hu : u.Reachable text) (hus : u.LooksLike s) :
    ∃ u', u'.Reachable text ∧ u'.LooksLike v ∧
      countedList g count opening closing separator element u =
        (count >>= fun n => listLoop g closing separator element n >>=
          fun found => pure (listOutcome found)) u' := by
  obtain ⟨⟨o, hopening⟩, c, hclosing⟩ := h
  obtain ⟨u₁, hopening', hsame⟩ := hopening.of_looksLike hus
  have hu₁ : u₁.Reachable text := run_reachable hu hopening'.1
  obtain ⟨u₂, hclosing', hu₂, hlook⟩ := hclosing.again hu₁ (.of_same hsame)
  refine ⟨u₂, hu₂, hlook, ?_⟩
  simp only [countedList, countedBody, bind_apply, hopening'.1, hopening'.2, if_true, hclosing',
    hclosing.1, Bool.false_eq_true, if_false]

section

variable (hopening : opening.EndsEverywhere g lexer text)
  (hclosing : closing.EndsEverywhere g lexer text)
include hopening hclosing

/-- A list that comes to no loop ends, for its delimiters do. -/
theorem exists_unclosed_of_endless {count : Parse lexer Nat} (hu : u.Reachable text)
    (hus : u.LooksLike s)
    (h : valueOf (countedList g count opening closing separator element u) = .error .endless) :
    ∃ v, Unclosed g opening closing s v := by
  rw [countedList, countedBody, bind_apply] at h
  rcases run_cases g opening s with ⟨o, v, hmatch⟩ | ⟨o, hfails⟩ | ⟨e, x, herror⟩
  · obtain ⟨u₁, hmatch', hsame⟩ := hmatch.of_looksLike hus
    have hlook : u₁.LooksLike v := .of_same hsame
    simp only [hmatch'.1, hmatch'.2, if_true, bind_apply] at h
    rcases run_cases g closing v with ⟨c, x, hclosed⟩ | ⟨c, hclosed⟩ | ⟨e, x, herror⟩
    · obtain ⟨u₂, hclosed', -⟩ := hclosed.of_looksLike hlook
      simp only [hclosed'.1, hclosed'.2, if_true] at h
      cases h
    · exact ⟨v, ⟨o, hmatch⟩, c, hclosed⟩
    · obtain ⟨u₂, herror'⟩ := run_error_of_looksLike herror hlook
      rw [herror'] at h
      cases h
      exact absurd (congrArg valueOf herror') (hclosing u₁ (run_reachable hu hmatch'.1))
  · obtain ⟨u₁, hrun, -, -⟩ := hfails.again hu hus
    simp only [hrun, hfails.1, Bool.false_eq_true, if_false] at h
    cases h
  · obtain ⟨u₁, herror'⟩ := run_error_of_looksLike herror hus
    rw [herror'] at h
    cases h
    exact absurd (congrArg valueOf herror') (hopening u hu)

/-- If the number of steps tells of every place whether there are as many rounds, it tells whether
the list ends. -/
theorem valueOf_countedList_eq_endless_iff (hseparator : separator.EndsEverywhere g lexer text)
    (helement : element.EndsEverywhere g lexer text) {count : Parse lexer Nat}
    {goesOn : Stream lexer → Prop}
    (hcount : ∀ u v : Stream lexer, u.Reachable text → v.Reachable text → u.LooksLike v →
      ∃ n, count u = .ok n u ∧ ((∃ w, Rounds g separator element v n w) ↔ goesOn v))
    (hs : s.Reachable text) (hu : u.Reachable text) (hus : u.LooksLike s) :
    valueOf (countedList g count opening closing separator element u) = .error .endless ↔
      ∃ v, Unclosed g opening closing s v ∧ goesOn v := by
  have hloop {v : Stream lexer} (hv : Unclosed g opening closing s v) :
      valueOf (countedList g count opening closing separator element u) = .error .endless ↔
        goesOn v := by
    obtain ⟨u', hu', hlook, hbody⟩ := countedList_of_unclosed hv count separator element hu hus
    have hreach : v.Reachable text :=
      let ⟨⟨_, hmatch⟩, _⟩ := hv
      run_reachable hs hmatch.1
    obtain ⟨n, hn, hrounds⟩ := hcount u' v hu' hreach hlook
    rw [hbody, bind_apply, hn, ← hrounds]
    exact valueOf_bind_pure_eq_error.trans
      (valueOf_listLoop_eq_endless_iff hclosing hseparator helement hreach hu' hlook n)
  constructor
  · intro h
    obtain ⟨v, hv⟩ := exists_unclosed_of_endless hopening hclosing hu hus h
    exact ⟨v, hv, (hloop hv).1 h⟩
  · rintro ⟨v, hv, hgoes⟩
    exact (hloop hv).2 hgoes

end

/-- A list that ends is not changed by more steps than the text has characters. -/
theorem countedList_pure_of_le (hu : u.Reachable text) (hn : text.toList.length + 2 ≤ n)
    (h : valueOf (countedList g steps opening closing separator element u) ≠ .error .endless) :
    countedList g (pure n) opening closing separator element u =
      countedList g steps opening closing separator element u := by
  simp only [countedList, countedBody, bind_apply] at h ⊢
  cases hopening : opening.run g u with
  | error e t => rfl
  | ok o v =>
    rw [hopening] at h
    by_cases ho : o.isMatch = true
    · simp only [ho, if_true, bind_apply] at h ⊢
      cases hclosing : closing.run g v with
      | error e t => rfl
      | ok c w =>
        rw [hclosing] at h
        by_cases hc : c.isMatch = true
        · simp only [hc, if_true]
        · rw [Bool.not_eq_true] at hc
          simp only [hc, Bool.false_eq_true, if_false] at h ⊢
          have hsum := (run_reachable (run_reachable hu hopening) hclosing).offset_add_unread
          have hends : valueOf (listLoop g closing separator element (w.unread + 2) w) ≠
              .error .endless := fun hend => h (valueOf_bind_pure_eq_error.2 hend)
          exact bind_congr_apply (separatedElements_of_le hends (by omega)) _
    · rw [Bool.not_eq_true] at ho
      simp only [ho, Bool.false_eq_true, if_false]

/-! ## The list -/

/-- A list whose loop may take so many steps. -/
def Segment.listWithin (g : Grammar) (bound : Nat) (opening closing separator element : Segment) :
    Parse lexer Outcome :=
  guarded g (Segment.delimited opening closing separator element).options
    (countedList g (pure bound) opening closing separator element)

theorem run_delimited_eq (g : Grammar) (opening closing separator element : Segment)
    (s : Stream lexer) :
    (Segment.delimited opening closing separator element).run g s =
      guarded g (Segment.delimited opening closing separator element).options
        (countedList g steps opening closing separator element) s := by
  rw [run_eq, countedList, countedBody_steps]
  rfl

/-- A segment runs out of steps if it begins and its body does. -/
theorem valueOf_guarded_eq_endless_iff (p : Segment) (body : Parse lexer Outcome) :
    valueOf (guarded g p.options body s) = .error .endless ↔
      ∃ u, p.Begins g s u ∧ valueOf (body u) = .error .endless := by
  have hbegins {u : Stream lexer} (hu : p.Begins g s u) :
      valueOf (guarded g p.options body s) = .error .endless ↔
        valueOf (body u) = .error .endless := by
    obtain ⟨hlt, start, seen, hp, rfl⟩ := hu
    rw [guarded_of_position hlt (position_of_parse hp), settled]
    cases body (p.opened start seen) with
    | error e t => rfl
    | ok o t =>
      obtain ⟨verdict, key, nesting, progress⟩ := o
      constructor <;> intro h <;> cases verdict <;> cases h
  constructor
  · intro h
    by_cases hu : ∃ u, p.Begins g s u
    · obtain ⟨u, hu⟩ := hu
      exact ⟨u, hu, (hbegins hu).1 h⟩
    · obtain ⟨e, s', -, hguarded⟩ := guarded_of_not_begins fun u hb => hu ⟨u, hb⟩
      rw [hguarded body] at h
      cases h
  · rintro ⟨u, hu, h⟩
    exact (hbegins hu).2 h

/-- By how many steps a list may take in any place, it ends or does not. -/
theorem valueOf_guarded_countedList_eq_endless_iff (hs : s.Reachable text)
    (hparts : ∀ p ∈ [opening, closing, separator, element], p.EndsEverywhere g lexer text)
    {count : Parse lexer Nat} {goesOn : Stream lexer → Prop}
    (hcount : ∀ u v : Stream lexer, u.Reachable text → v.Reachable text → u.LooksLike v →
      ∃ n, count u = .ok n u ∧ ((∃ w, Rounds g separator element v n w) ↔ goesOn v)) :
    valueOf (guarded g (Segment.delimited opening closing separator element).options
        (countedList g count opening closing separator element) s) = .error .endless ↔
      ∃ v, Unclosed g opening closing (s.atDepth (s.depth + 1)) v ∧ goesOn v := by
  simp only [List.mem_cons, List.not_mem_nil, or_false, forall_eq_or_imp, forall_eq] at hparts
  obtain ⟨hopening, hclosing, hseparator, helement⟩ := hparts
  have hbody {u : Stream lexer}
      (hu : (Segment.delimited opening closing separator element).Begins g s u) :=
    valueOf_countedList_eq_endless_iff hopening hclosing hseparator helement hcount (hs.nest _)
      (hu.reachable hs) hu.looksLike
  rw [valueOf_guarded_eq_endless_iff]
  constructor
  · rintro ⟨u, hu, h⟩
    exact (hbody hu).1 h
  · rintro ⟨v, hv, hgoes⟩
    obtain ⟨⟨o, hmatch⟩, -⟩ := id hv
    obtain ⟨u, hu⟩ :=
      begins_of_inside hmatch.1 (Segment.delimited opening closing separator element)
    exact ⟨u, hu, (hbody hu).2 ⟨v, hv, hgoes⟩⟩

theorem valueOf_listWithin_eq_endless_iff (hs : s.Reachable text)
    (hparts : ∀ p ∈ [opening, closing, separator, element], p.EndsEverywhere g lexer text)
    (bound : Nat) :
    valueOf (listWithin g bound opening closing separator element s) = .error .endless ↔
      ∃ v, Unclosed g opening closing (s.atDepth (s.depth + 1)) v ∧
        ∃ w, Rounds g separator element v bound w :=
  valueOf_guarded_countedList_eq_endless_iff hs hparts fun _ _ _ _ _ => ⟨bound, rfl, Iff.rfl⟩

theorem valueOf_run_delimited_eq_endless_iff (hs : s.Reachable text)
    (hparts : ∀ p ∈ [opening, closing, separator, element], p.EndsEverywhere g lexer text) :
    valueOf ((Segment.delimited opening closing separator element).run g s) = .error .endless ↔
      Circles g opening closing separator element (s.atDepth (s.depth + 1)) := by
  rw [run_delimited_eq]
  refine valueOf_guarded_countedList_eq_endless_iff hs hparts fun u v hu hv huv => ?_
  refine ⟨u.unread + 2, rfl, Rounds.exists_iff hv ?_⟩
  have := hu.offset_add_unread
  have := hu.offset_le_sees
  rw [← huv.sees_eq]
  omega

/-- A list that goes round for ever runs out of any number of steps. -/
theorem valueOf_listWithin_of_circles (hs : s.Reachable text)
    (hparts : ∀ p ∈ [opening, closing, separator, element], p.EndsEverywhere g lexer text)
    (h : Circles g opening closing separator element (s.atDepth (s.depth + 1))) (bound : Nat) :
    valueOf (listWithin g bound opening closing separator element s) = .error .endless := by
  obtain ⟨v, hv, hidle⟩ := h
  obtain ⟨⟨o, hmatch⟩, -⟩ := id hv
  have hrounds := (Rounds.forall_iff (run_reachable (hs.nest _) hmatch.1)).2 hidle
  exact (valueOf_listWithin_eq_endless_iff hs hparts bound).2 ⟨v, hv, hrounds bound⟩

theorem listWithin_eq_run (hs : s.Reachable text) {bound : Nat}
    (hbound : text.toList.length + 2 ≤ bound)
    (h : valueOf ((Segment.delimited opening closing separator element).run g s) ≠
      .error .endless) :
    listWithin g bound opening closing separator element s =
      (Segment.delimited opening closing separator element).run g s := by
  rw [run_delimited_eq] at h ⊢
  rw [ne_eq, valueOf_guarded_eq_endless_iff, not_exists] at h
  by_cases hu : ∃ u, (Segment.delimited opening closing separator element).Begins g s u
  · obtain ⟨u, hu⟩ := hu
    have hsame := countedList_pure_of_le (hu.reachable hs) hbound fun hend => h u ⟨hu, hend⟩
    obtain ⟨hlt, start, seen, hp, rfl⟩ := hu
    rw [listWithin, guarded_of_position hlt (position_of_parse hp),
      guarded_of_position hlt (position_of_parse hp), settled, settled, hsame]
  · obtain ⟨e, s', -, hguarded⟩ := guarded_of_not_begins fun u hb => hu ⟨u, hb⟩
    rw [listWithin, hguarded, hguarded]

/-- A delimited list whose parts all end, ends if and only if it does not come to an element with a
separator behind it that both match and consume nothing. Then its loop takes no more steps than the
text has characters, and would not take more if it could. A list that does come there goes round for
ever: it runs out of any number of steps, and for every number it goes by as many elements with
separators behind them. -/
theorem delimited_ends_iff (hs : s.Reachable text)
    (hparts : ∀ p ∈ [opening, closing, separator, element], p.EndsEverywhere g lexer text) :
    let list := Segment.delimited opening closing separator element
    let inside := s.atDepth (s.depth + 1)
    let circles := Circles g opening closing separator element inside
    (((∃ o t, list.run g s = .ok o t) ∨ ∃ e t, list.run g s = .error (.error e) t) ↔ ¬ circles) ∧
    (¬ circles → ∀ bound, text.toList.length + 2 ≤ bound →
      listWithin g bound opening closing separator element s = list.run g s) ∧
    ((∀ bound, valueOf (listWithin g bound opening closing separator element s) =
      .error .endless) ↔ circles) ∧
    ((∃ v, Unclosed g opening closing inside v ∧ ∀ n, ∃ w, Rounds g separator element v n w) ↔
      circles) := by
  intro list inside circles
  have hendless : valueOf (list.run g s) = .error .endless ↔ circles :=
    valueOf_run_delimited_eq_endless_iff hs hparts
  have hforever : (∃ v, Unclosed g opening closing inside v ∧
      ∀ n, ∃ w, Rounds g separator element v n w) ↔ circles := by
    refine exists_congr fun v => and_congr_right ?_
    rintro ⟨⟨o, hmatch⟩, -⟩
    exact Rounds.forall_iff (run_reachable (hs.nest _) hmatch.1)
  have hends (h : ¬ circles) : valueOf (list.run g s) ≠ .error .endless := mt hendless.1 h
  refine ⟨⟨?_, fun h => ?_⟩, fun h bound hbound => ?_, ⟨fun h => ?_, fun h bound => ?_⟩, hforever⟩
  · rintro (⟨o, t, hrun⟩ | ⟨e, t, hrun⟩) hcircles <;> rw [hrun] at hendless <;>
      cases hendless.2 hcircles
  · cases hrun : list.run g s with
    | ok o t => exact .inl ⟨o, t, rfl⟩
    | error e t =>
      cases e with
      | error e => exact .inr ⟨e, t, rfl⟩
      | endless => exact absurd (congrArg valueOf hrun) (hends h)
  · exact listWithin_eq_run hs hbound (hends h)
  · by_contra hnot
    have hlist := listWithin_eq_run hs (Nat.le_refl _) (hends hnot)
    exact hends hnot (hlist ▸ h _)
  · exact valueOf_listWithin_of_circles hs hparts h bound

/-- Where no separator in it matches without consuming anything, a segment ends everywhere. -/
theorem Segment.endsEverywhere {p : Segment} (hg : ∀ q ∈ g.separators, q.Consumes g lexer text)
    (hp : ∀ q ∈ p.separators, q.Consumes g lexer text) : p.EndsEverywhere g lexer text := by
  intro s hs hend
  rw [Segment.run] at hend
  rcases ends_runWithin hg rfl hp 0 s ⟨hs, rfl, Nat.zero_le _⟩ with
    ⟨o, t, hrun, -⟩ | ⟨e, t, hrun⟩ <;> rw [hrun] at hend <;> cases hend

/-- A list of words in brackets that needs neither the words nor the commas. -/
def looseList : Segment :=
  .delimited (.exact "mark" "(") (.exact "mark" ")") (.possibly "mark" ",")
    (.optional (.ofKind "word"))

theorem endsEverywhere_of_isEmpty {parts : List Segment}
    (h : parts.all (·.separators.isEmpty) = true) :
    ∀ p ∈ parts, p.EndsEverywhere {} lexer text := by
  intro p hp
  have hnone : p.separators = [] := List.isEmpty_iff.1 (List.all_eq_true.1 h p hp)
  refine Segment.endsEverywhere (fun q hq => by cases hq) fun q hq => ?_
  rw [hnone] at hq
  cases hq

/-- On an open bracket with a word behind it the list of words ends, and the loose one goes round
for ever where the text ends. -/
theorem delimited_ends_iff_looseList :
    let s : Stream wordsAndMarks := .ofString "(a"
    let words : List Segment :=
      [.exact "mark" "(", .exact "mark" ")", .exact "mark" ",", .ofKind "word"]
    let loose : List Segment :=
      [.exact "mark" "(", .exact "mark" ")", .possibly "mark" ",", .optional (.ofKind "word")]
    s.Reachable "(a" ∧
    (∀ p ∈ words, p.EndsEverywhere {} wordsAndMarks "(a") ∧
    (∀ p ∈ loose, p.EndsEverywhere {} wordsAndMarks "(a") ∧
    ¬ Circles {} (.exact "mark" "(") (.exact "mark" ")") (.exact "mark" ",") (.ofKind "word")
      (s.atDepth 1) ∧
    Circles {} (.exact "mark" "(") (.exact "mark" ")") (.possibly "mark" ",")
      (.optional (.ofKind "word")) (s.atDepth 1) := by
  intro s words loose
  have hwords : ∀ p ∈ words, p.EndsEverywhere {} wordsAndMarks "(a" := endsEverywhere_of_isEmpty rfl
  have hloose : ∀ p ∈ loose, p.EndsEverywhere {} wordsAndMarks "(a" := endsEverywhere_of_isEmpty rfl
  refine ⟨.start, hwords, hloose, ?_, ?_⟩
  · obtain ⟨o, -, t, ht⟩ : ∃ o, wordList.Fails {} s o := fails_of_isMatch (by decide +kernel)
    exact (delimited_ends_iff .start hwords).1.1 (.inl ⟨o, t, ht⟩)
  · obtain ⟨t, ht⟩ := exists_of_ranOut (r := looseList.run {} s) (by decide +kernel)
    by_contra hnot
    rcases (delimited_ends_iff .start hloose).1.2 hnot with ⟨o, u, hu⟩ | ⟨e, u, hu⟩ <;>
      cases ht.symm.trans hu

/-- A list may go round for ever although each of its parts ends everywhere: no number of steps is
enough for it. -/
theorem delimited_endless :
    ¬ ∀ (lexer : Lexer) (text : String) (g : Grammar) (s : Stream lexer)
      (opening closing separator element : Segment), s.Reachable text →
      (∀ p ∈ [opening, closing, separator, element], p.EndsEverywhere g lexer text) →
      ∃ bound, valueOf (listWithin g bound opening closing separator element s) ≠
        .error .endless := by
  intro h
  let s : Stream wordsAndMarks := .ofString "(a"
  have hparts : ∀ p ∈ [.exact "mark" "(", .exact "mark" ")", .possibly "mark" ",",
      .optional (.ofKind "word")], Segment.EndsEverywhere {} wordsAndMarks "(a" p :=
    endsEverywhere_of_isEmpty rfl
  obtain ⟨bound, hends⟩ := h _ "(a" {} s _ _ _ _ .start hparts
  obtain ⟨t, ht⟩ := exists_of_ranOut (r := looseList.run {} s) (by decide +kernel)
  have hcircles := (valueOf_run_delimited_eq_endless_iff .start hparts).1 (congrArg valueOf ht)
  exact hends (valueOf_listWithin_of_circles .start hparts hcircles bound)

end Descent
