import Descent.Proofs.Consuming
import Descent.Proofs.Delimiting

/-!
# Repetitions and their elements

A repetition tries its terminator, if it has one, then asks whether a token is left, and only then
runs its element. The element has to match and to consume a token, so there are no more elements
than tokens that they consume, and the steps that a repetition is given are always enough of them.
It is over where the terminator matches or no token is left; an element that fails or consumes
nothing ends it with an error, as every error of a run in it does.

* `Segment.Repeats`: elements in a row.
* `Segment.Halts`: the ways in which a repetition comes to its end.
* `exists_repeats`: there is such a row, and such an end behind it.
* `repeatLoop_of_repeats`, `repeatLoop_of_halts`: the loop against the elements it goes by.
* `repetition_outcome`: what a repetition matches and where it is refused.
-/
namespace Descent

open Descent.Stream

variable {lexer : Lexer} {text : String} {g : Grammar} {s t u v w seen : Stream lexer}
  {terminator : Option Segment} {p element : Segment} {o : Outcome} {os : List Outcome}
  {found : Option Token} {x : Token} {xs : List Token} {fuel : Nat}

/-! ## Elements in a row -/

namespace Segment

/-- The element again and again, up to the terminator, if there is one. -/
def repetition (terminator : Option Segment) (element : Segment) : Segment :=
  match terminator with
  | some p => .untilMatch p element
  | none => .untilEnd element

/-- No terminator matches here. -/
def Unended (g : Grammar) (terminator : Option Segment) (s : Stream lexer) : Prop :=
  ∀ p ∈ terminator, ∃ o, p.Fails g s o

/-- The repetition goes on here: no terminator matches, and a token is left. -/
structure GoesOn (g : Grammar) (terminator : Option Segment) (s : Stream lexer) : Prop where
  unended : Unended g terminator s
  token : ∃ x seen, peek s = .ok (some x) seen

/-- Elements in a row that each consume a token. Each begins where the one before it ended, and
where the repetition goes on. -/
inductive Repeats (g : Grammar) (terminator : Option Segment) (element : Segment) :
    Stream lexer → List Outcome → Stream lexer → Prop
  | none (s : Stream lexer) : Repeats g terminator element s [] s
  | more {s t u : Stream lexer} {o : Outcome} {os : List Outcome} {x : Token} {xs : List Token}
    (hgoes : GoesOn g terminator s) (h : element.Matches g s o t) (hgives : s.Gives (x :: xs) t)
    (hrest : Repeats g terminator element t os u) : Repeats g terminator element s (o :: os) u

/-- How a repetition ends in `s`: behind a terminator or where no token is left, or with an
error. -/
inductive Halts (g : Grammar) (terminator : Option Segment) (element : Segment)
    (s : Stream lexer) : Except Stop (Stream lexer) → Prop
  | terminated {p : Segment} {o : Outcome} {t : Stream lexer} (hp : p ∈ terminator)
    (h : p.Matches g s o t) : Halts g terminator element s (.ok t)
  | exhausted {seen : Stream lexer} (hunended : Unended g terminator s)
    (h : peek s = .ok none seen) : Halts g terminator element s (.ok seen)
  /-- The error of a terminator is passed on. -/
  | raised {p : Segment} {e : Stop} {t : Stream lexer} (hp : p ∈ terminator)
    (h : p.run g s = .error e t) : Halts g terminator element s (.error e)
  | unreadable {e : ReadError} {seen : Stream lexer} (hunended : Unended g terminator s)
    (h : peek s = .error e seen) : Halts g terminator element s (.error (.error (.reading e)))
  /-- The error of an element is passed on. -/
  | broken {e : Stop} {t : Stream lexer} (hgoes : GoesOn g terminator s)
    (h : element.run g s = .error e t) : Halts g terminator element s (.error e)
  /-- An element that fails is reported. -/
  | refused {o : Outcome} {e : ParseError} (hgoes : GoesOn g terminator s)
    (h : element.Fails g s o) (he : valueOf (Parse.complaint o s) = .ok e) :
    Halts g terminator element s (.error (.error e))
  /-- An element that consumes no token is refused. -/
  | idle {o : Outcome} {t : Stream lexer} {start : Position} (hgoes : GoesOn g terminator s)
    (h : element.Matches g s o t) (hgives : s.Gives [] t)
    (hstart : valueOf (position s) = .ok start) :
    Halts g terminator element s
      (.error (.error (.mismatch start "Repeated rule matched without consuming input")))

end Segment

open Segment (GoesOn Unended Repeats Halts)

section

variable (hg : g.Scriptless) (helement : element.Scriptless)
include hg helement

/-- Everywhere a repetition ends, or an element consumes a token. -/
theorem halts_or_steps (terminator : Option Segment) (hs : s.Reachable text) :
    (∃ r, Halts g terminator element s r) ∨ ∃ o x xs t, GoesOn g terminator s ∧
      element.Matches g s o t ∧ s.Gives (x :: xs) t := by
  have hterminator : (∃ r, Halts g terminator element s r) ∨ Unended g terminator s := by
    cases terminator with
    | none => exact .inr nofun
    | some p =>
      rcases run_cases g p s with ⟨o, t, h⟩ | h | ⟨e, t, h⟩
      · exact .inl ⟨_, .terminated rfl h⟩
      · exact .inr fun q hq => Option.some.inj hq ▸ h
      · exact .inl ⟨_, .raised rfl h⟩
  rcases hterminator with h | hunended
  · exact .inl h
  cases hp : peek s with
  | error e seen => exact .inl ⟨_, .unreadable hunended hp⟩
  | ok found seen =>
    cases found with
    | none => exact .inl ⟨_, .exhausted hunended hp⟩
    | some x =>
      have hgoes : GoesOn g terminator s := ⟨hunended, x, seen, hp⟩
      rcases run_cases g element s with ⟨o, t, h⟩ | ⟨o, h⟩ | ⟨e, t, h⟩
      · obtain ⟨xs, hxs, -⟩ := consumes_run hg helement hs h
        cases xs with
        | nil =>
          obtain ⟨start, hstart⟩ := exists_position hp
          exact .inl ⟨_, .idle hgoes h hxs (by rw [hstart]; rfl)⟩
        | cons x xs => exact .inr ⟨o, x, xs, t, hgoes, h, hxs⟩
      · obtain ⟨position, message, t, hreport⟩ := complaint_of_peek hp o
        exact .inl ⟨_, .refused hgoes h (by rw [hreport]; rfl)⟩
      · exact .inl ⟨_, .broken hgoes h⟩

/-- There is a row of elements with an end behind it, and no element without a token. -/
theorem exists_repeats (terminator : Option Segment) (hs : s.Reachable text) :
    ∃ os xs t r, Repeats g terminator element s os t ∧ s.Gives xs t ∧ os.length ≤ xs.length ∧
      Halts g terminator element t r := by
  -- Every element moves the look on, and no look sees beyond the end of the text.
  generalize hn : text.toList.length - s.sees = n
  induction n using Nat.strongRecOn generalizing s with
  | ind n ih =>
    rcases halts_or_steps hg helement terminator hs with
      ⟨r, hr⟩ | ⟨o, x, xs, t, hgoes, h, hxs⟩
    · exact ⟨[], [], s, r, .none s, .refl s, Nat.le_refl 0, hr⟩
    · have ht : t.Reachable text := run_reachable hs h.1
      have hlength := hxs.sees_add_length_le hs
      rw [List.length_cons] at hlength
      have hend := ht.sees_le
      obtain ⟨os, ys, v, r, hrest, hys, hle, hr⟩ := ih _ (by omega) ht rfl
      refine ⟨o :: os, x :: xs ++ ys, v, r, .more hgoes h hxs hrest, hxs.trans hys, ?_, hr⟩
      rw [List.length_append, List.length_cons, List.length_cons]
      omega

end

theorem Segment.Repeats.reachable (h : Repeats g terminator element s os t)
    (hs : s.Reachable text) : t.Reachable text := by
  induction h with
  | none => exact hs
  | more _ h _ _ ih => exact ih (run_reachable hs h.1)

/-- There are no more elements than characters that a look can move by. -/
theorem Segment.Repeats.sees_add_length_le (h : Repeats g terminator element s os t)
    (hs : s.Reachable text) : s.sees + os.length ≤ t.sees := by
  induction h with
  | none => exact Nat.le_refl _
  | more _ h hgives _ ih =>
    have := ih (run_reachable hs h.1)
    have := hgives.sees_add_length_le hs
    simp only [List.length_cons] at *
    omega

/-! ## The loop -/

/-- Is the repetition over? The terminator is tried first. -/
def isOver (g : Grammar) (terminator : Option Segment) : Parse lexer Bool :=
  match terminator with
  | some p => do if (← p.run g).isMatch then return true else Parse.atEnd
  | none => Parse.atEnd

/-- The loop of a repetition with or without a terminator. -/
def repeatLoop (g : Grammar) (terminator : Option Segment) (element : Segment) :
    Nat → Parse lexer (List Value)
  | 0 => throw .endless
  | fuel + 1 => do
    if ← isOver g terminator then return []
    else
      let o ← requiredStep (element.run g)
      return o.data?.toList ++ (← repeatLoop g terminator element fuel)

theorem elementsUntilEnd_eq (g : Grammar) (element : Segment) (fuel : Nat) :
    (elementsUntilEnd (element.run g) fuel : Parse lexer _) = repeatLoop g none element fuel := by
  induction fuel with
  | zero => rfl
  | succ fuel ih => rw [elementsUntilEnd, ih]; rfl

theorem elementsUntil_eq (g : Grammar) (p element : Segment) (fuel : Nat) :
    (elementsUntil (p.run g) (element.run g) fuel : Parse lexer _) =
      repeatLoop g (some p) element fuel := by
  induction fuel with
  | zero => rfl
  | succ fuel ih =>
    simp only [elementsUntil, repeatLoop, isOver, bind_assoc, ih]
    refine congrArg (p.run g >>= ·) (funext fun ended => ?_)
    cases ended.isMatch <;> rfl

/-- What the body of a repetition does. -/
theorem repetition_body (g : Grammar) (terminator : Option Segment) (element : Segment) :
    ((Segment.repetition terminator element).shape.body g (Segment.run g) : Parse lexer Outcome) =
      do
        let items ← repeatLoop g terminator element (← steps)
        return .withData (.list items) := by
  cases terminator with
  | none =>
    refine congrArg (steps >>= ·) (funext fun fuel => ?_)
    rw [elementsUntilEnd_eq]
  | some p =>
    refine congrArg (steps >>= ·) (funext fun fuel => ?_)
    rw [elementsUntil_eq]

theorem atEnd_of_peek (hp : peek s = .ok found seen) : Parse.atEnd s = .ok found.isNone seen := by
  rw [Parse.atEnd, Parse.ofPull, atEnd_eq, hp]

section

variable (hu : u.Reachable text) (huv : u.LooksLike v)
include hu huv

/-- Where no terminator matches, the end of the text is asked for. -/
theorem isOver_of_unended (h : Unended g terminator v) :
    ∃ u', u'.Reachable text ∧ u'.LooksLike v ∧ isOver g terminator u = Parse.atEnd u' := by
  cases terminator with
  | none => exact ⟨u, hu, huv, rfl⟩
  | some p =>
    obtain ⟨o, hfails⟩ := h p rfl
    obtain ⟨u', hrun, hu', hlook⟩ := hfails.again hu huv
    refine ⟨u', hu', hlook, ?_⟩
    simp only [isOver, bind_apply, hrun, hfails.1, Bool.false_eq_true, if_false]

theorem isOver_of_goesOn (h : GoesOn g terminator v) :
    ∃ u', u'.Reachable text ∧ u'.LooksLike v ∧ isOver g terminator u = .ok false u' := by
  obtain ⟨x, seen, hp⟩ := h.token
  obtain ⟨u₁, hu₁, hlook₁, hover⟩ := isOver_of_unended hu huv h.unended
  obtain ⟨u₂, hpeek, -⟩ := hlook₁.peek_eq hp
  exact ⟨u₂, hu₁.of_peek hpeek, (LooksLike.of_peek hpeek).trans hlook₁,
    hover.trans (atEnd_of_peek hpeek)⟩

/-- Where the repetition goes on the element has to match and to read something. -/
theorem repeatLoop_of_goesOn (h : GoesOn g terminator v) (element : Segment) (fuel : Nat) :
    ∃ u' start, u'.Reachable text ∧ u'.LooksLike v ∧ valueOf (position v) = .ok start ∧
      repeatLoop g terminator element (fuel + 1) u = (do
        let o ← required (element.run g)
        if o.progress = 0 then
          Parse.refuse (.mismatch start "Repeated rule matched without consuming input")
        else return o.data?.toList ++ (← repeatLoop g terminator element fuel)) u' := by
  obtain ⟨u₁, hu₁, hlook₁, hover⟩ := isOver_of_goesOn hu huv h
  obtain ⟨x, seen, hp⟩ := h.token
  obtain ⟨u₂, hpeek, -⟩ := hlook₁.peek_eq hp
  obtain ⟨start, hstart⟩ := exists_position hpeek
  refine ⟨u₂, start, hu₁.of_peek hpeek, (LooksLike.of_peek hpeek).trans hlook₁, ?_, ?_⟩
  · rw [← hlook₁.position.1, hstart]
    rfl
  · have hposition : Parse.position u₁ = .ok start u₂ := by rw [position_apply, hstart]
    rw [repeatLoop, bind_apply, hover]
    simp only [Bool.false_eq_true, if_false, requiredStep, bind_assoc]
    rw [bind_apply, hposition]
    simp only
    refine congrFun (congrArg _ (funext fun o => ?_)) u₂
    split
    · rfl
    · rw [pure_bind]

/-- A repetition that ends without an error is over. -/
theorem repeatLoop_of_halts_ok (h : Halts g terminator element v (.ok t)) (fuel : Nat) :
    ∃ u', repeatLoop g terminator element (fuel + 1) u = .ok [] u' ∧ Same u' t := by
  obtain ⟨u', hover, hsame⟩ : ∃ u', isOver g terminator u = .ok true u' ∧ Same u' t := by
    cases h with
    | @terminated p o _ hp h =>
      cases hp
      obtain ⟨u', hm, hsame⟩ := h.of_looksLike huv
      refine ⟨u', ?_, hsame⟩
      simp only [isOver, bind_apply, hm.1, hm.2, if_true]
      rfl
    | exhausted hunended hp =>
      obtain ⟨u₁, hu₁, hlook, hover⟩ := isOver_of_unended hu huv hunended
      obtain ⟨u', hpeek, hsame⟩ := hlook.peek_eq hp
      exact ⟨u', hover.trans (atEnd_of_peek hpeek), hsame⟩
  refine ⟨u', ?_, hsame⟩
  rw [repeatLoop, bind_apply, hover]
  rfl

end

section

variable (hg : g.Scriptless) (helement : element.Scriptless) (hv : v.Reachable text)
  (hu : u.Reachable text) (huv : u.LooksLike v)
include hg helement hv hu huv

/-- The loop goes by all elements that are there. -/
theorem repeatLoop_of_repeats (h : Repeats g terminator element v os w) (fuel : Nat) :
    ∃ u', u'.Reachable text ∧ u'.LooksLike w ∧
      repeatLoop g terminator element (os.length + fuel) u =
        (repeatLoop g terminator element fuel >>= fun items => pure (collected os ++ items))
          u' := by
  induction h generalizing u with
  | none v =>
    refine ⟨u, hu, huv, ?_⟩
    simp [collected]
  | @more v t w o os x xs hgoes h hgives hrest ih =>
    obtain ⟨u₁, start, hu₁, hlook₁, -, hloop⟩ :=
      repeatLoop_of_goesOn hu huv hgoes element (os.length + fuel)
    obtain ⟨u₂, hm, hsame⟩ := h.of_looksLike hlook₁
    have hprogress : o.progress ≠ 0 := by
      rw [ne_eq, progress_eq_zero_iff hg helement hv h hgives]
      exact List.cons_ne_nil _ _
    obtain ⟨u', hu', hlook', hmore⟩ :=
      ih (run_reachable hv h.1) (run_reachable hu₁ hm.1) (.of_same hsame)
    refine ⟨u', hu', hlook', ?_⟩
    have hsum : (o :: os).length + fuel = os.length + fuel + 1 := by
      rw [List.length_cons]
      omega
    rw [hsum, hloop, bind_apply, required_of_match hm]
    simp only [if_neg hprogress]
    rw [bind_congr_apply hmore]
    simp [collected_cons]

/-- Its steps are enough of them. -/
theorem repetition_of_repeats (h : Repeats g terminator element v os w) :
    ∃ u' fuel, u'.Reachable text ∧ u'.LooksLike w ∧
      (Segment.repetition terminator element).shape.body g (Segment.run g) u =
        (repeatLoop g terminator element (fuel + 1) >>= fun items =>
          pure (.withData (.list (collected os ++ items)))) u' := by
  have hsum := hu.offset_add_unread
  have hsees := hu.offset_le_sees
  have hlength := h.sees_add_length_le hv
  have hend := (h.reachable hv).sees_le
  rw [huv.sees_eq] at hsees
  obtain ⟨fuel, hfuel⟩ : ∃ fuel, u.unread + 2 = os.length + (fuel + 1) :=
    ⟨u.unread + 1 - os.length, by omega⟩
  obtain ⟨u', hu', hlook, hloop⟩ := repeatLoop_of_repeats hg helement hv hu huv h (fuel + 1)
  refine ⟨u', fuel, hu', hlook, ?_⟩
  have hsteps : steps u = .ok (os.length + (fuel + 1)) u := by rw [← hfuel]; rfl
  rw [repetition_body, bind_apply, hsteps]
  simp only
  rw [bind_congr_apply hloop, bind_assoc]
  simp only [pure_bind]

/-- And ends with the error that ends the repetition. -/
theorem repeatLoop_of_halts_error {e : Stop} (h : Halts g terminator element v (.error e))
    (fuel : Nat) : ∃ u', repeatLoop g terminator element (fuel + 1) u = .error e u' := by
  cases h with
  | @raised p e t hp h =>
    cases hp
    obtain ⟨u', herror⟩ := run_error_of_looksLike h huv
    refine ⟨u', ?_⟩
    simp only [repeatLoop, isOver, bind_apply, herror]
  | @unreadable e seen hunended hp =>
    obtain ⟨u₁, -, hlook, hover⟩ := isOver_of_unended hu huv hunended
    have hpeek : valueOf (peek u₁) = .error e := by rw [hlook.shown, hp]; rfl
    cases hp₁ : peek u₁ with
    | ok found u₂ => rw [hp₁] at hpeek; cases hpeek
    | error e' u₂ =>
      rw [hp₁] at hpeek
      cases hpeek
      refine ⟨u₂, ?_⟩
      rw [repeatLoop, bind_apply, hover, Parse.atEnd, Parse.ofPull, atEnd_eq, hp₁]
  | @broken e t hgoes h =>
    obtain ⟨u₁, start, -, hlook, -, hloop⟩ := repeatLoop_of_goesOn hu huv hgoes element fuel
    obtain ⟨u', herror⟩ := run_error_of_looksLike h hlook
    refine ⟨u', ?_⟩
    rw [hloop, bind_apply, required, bind_apply, herror]
  | @refused o e hgoes h he =>
    obtain ⟨u₁, start, hu₁, hlook, -, hloop⟩ := repeatLoop_of_goesOn hu huv hgoes element fuel
    obtain ⟨position, message, u', hrequired, hvalue⟩ := required_of_fails h hu₁ hlook
    rw [he] at hvalue
    cases hvalue
    exact ⟨u', by rw [hloop, bind_apply, hrequired]⟩
  | @idle o t start hgoes h hgives hstart =>
    obtain ⟨u₁, start', hu₁, hlook, hstart', hloop⟩ :=
      repeatLoop_of_goesOn hu huv hgoes element fuel
    rw [hstart] at hstart'
    cases hstart'
    obtain ⟨u₂, hm, -⟩ := h.of_looksLike hlook
    have hprogress : o.progress = 0 := (progress_eq_zero_iff hg helement hv h hgives).2 rfl
    refine ⟨u₂, ?_⟩
    rw [hloop, bind_apply, required_of_match hm]
    simp only [if_pos hprogress]
    rfl

end

/-! ## The repetition -/

/-- A match of a repetition without a terminator leaves no token unread. -/
theorem Segment.Halts.peek_eq (h : Halts g none element s (.ok t)) : peek t = .ok none t := by
  cases h with
  | terminated hp => cases hp
  | exhausted _ hp => exact peek_again hp

/-- Where no look succeeds there is no element, and the error of the look is the end. -/
theorem Segment.Halts.eq_of_look_error {e : ReadError} {d : Nat} {r : Except Stop (Stream lexer)}
    (hp : peek s = .error e seen) (hrepeats : Repeats g terminator element (s.atDepth d) os t)
    (h : Halts g terminator element t r) : r = .error (.error (.reading e)) := by
  have hlook : peek (s.atDepth d) = .error e (seen.atDepth d) := by rw [peek_atDepth, hp]
  have hgoes : ¬ GoesOn g terminator (s.atDepth d) := by
    rintro ⟨-, x, seen', hp'⟩
    rw [hlook] at hp'
    cases hp'
  cases hrepeats with
  | more hgoes' => exact absurd hgoes' hgoes
  | none =>
    cases h with
    | terminated _ h =>
      obtain ⟨found, seen', hp'⟩ := peek_of_run h.1
      rw [hlook] at hp'
      cases hp'
    | exhausted _ hp' => rw [hlook] at hp'; cases hp'
    | raised _ h =>
      rw [run_of_look_error hlook] at h
      cases h
      rfl
    | unreadable _ hp' =>
      rw [hlook] at hp'
      cases hp'
      rfl
    | broken hgoes' | refused hgoes' | idle hgoes' => exact absurd hgoes' hgoes

/-- Only a run that does not end makes a repetition that does not. -/
theorem Segment.Halts.ne_endless {r : Except Stop (Stream lexer)}
    (h : Halts g terminator element s r)
    (hterminator : ∀ p ∈ terminator, valueOf (p.run g s) ≠ .error .endless)
    (helement : valueOf (element.run g s) ≠ .error .endless) : r ≠ .error .endless := by
  rintro rfl
  cases h with
  | raised hp h => exact hterminator _ hp (by rw [h]; rfl)
  | broken _ h => exact helement (by rw [h]; rfl)

section

variable (hs : s.Reachable text) (hg : g.Scriptless) (helement : element.Scriptless)
  (hlt : s.depth < g.maxDepth)
  (hrepeats : Repeats g terminator element (s.atDepth (s.depth + 1)) os t)
include hs hg helement hlt hrepeats

/-- A repetition that is over matches with the data of its elements. -/
theorem repetition_match (h : Halts g terminator element t (.ok u)) :
    ∃ o v, (Segment.repetition terminator element).Matches g s o v ∧
      o.data? = some (.list (collected os)) ∧ Same v (u.atDepth s.depth) := by
  have hinside : (s.atDepth (s.depth + 1)).Reachable text := hs.nest _
  cases hp : peek s with
  | error e seen => cases Halts.eq_of_look_error hp hrepeats h
  | ok found seen =>
    obtain ⟨v, hv⟩ := exists_begins hlt hp (Segment.repetition terminator element)
    obtain ⟨u₁, fuel, hu₁, hlook, hbody⟩ :=
      repetition_of_repeats hg helement hinside (hv.reachable hs) hv.looksLike hrepeats
    obtain ⟨u₂, hloop, hsame⟩ := repeatLoop_of_halts_ok hu₁ hlook h fuel
    rw [bind_apply, hloop] at hbody
    obtain ⟨span, hrun⟩ := run_match_of_begins hv hbody rfl
    refine ⟨_, _, ⟨hrun, rfl⟩, ?_, hsame.cursor, hsame.buffered, hsame.lastEnd, rfl⟩
    simp [Outcome.settleMatch, Outcome.withData, Outcome.data?, Outcome.located]

/-- A repetition that comes to an error ends with it. -/
theorem repetition_error {e : Stop} (h : Halts g terminator element t (.error e)) :
    valueOf ((Segment.repetition terminator element).run g s) = .error e := by
  have hinside : (s.atDepth (s.depth + 1)).Reachable text := hs.nest _
  cases hp : peek s with
  | error e seen =>
    cases Halts.eq_of_look_error hp hrepeats h
    rw [run_of_look_error hp]
    rfl
  | ok found seen =>
    obtain ⟨v, hv⟩ := exists_begins hlt hp (Segment.repetition terminator element)
    obtain ⟨u₁, fuel, hu₁, hlook, hbody⟩ :=
      repetition_of_repeats hg helement hinside (hv.reachable hs) hv.looksLike hrepeats
    obtain ⟨u₂, hloop⟩ :=
      repeatLoop_of_halts_error hg helement (hrepeats.reachable hinside) hu₁ hlook h fuel
    rw [bind_apply, hloop] at hbody
    obtain ⟨u₃, hrun⟩ := run_error_of_begins hv hbody
    rw [hrun]
    rfl

end

/-- A match of a repetition without a terminator leaves no token unread. -/
theorem untilEnd_exhausts (hs : s.Reachable text) (hg : g.Scriptless)
    (helement : element.Scriptless) (h : (Segment.repetition none element).Matches g s o v) :
    ∃ u, peek v = .ok none u := by
  have hlt : s.depth < g.maxDepth := lt_of_run h.1
  obtain ⟨os, xs, t, r, hrepeats, -, -, hhalts⟩ :=
    exists_repeats hg helement none (hs.nest (s.depth + 1))
  cases r with
  | error e =>
    have hvalue := repetition_error hs hg helement hlt hrepeats hhalts
    rw [h.1] at hvalue
    cases hvalue
  | ok u =>
    obtain ⟨o', v', h', -, hsame⟩ := repetition_match hs hg helement hlt hrepeats hhalts
    have heq := h.1.symm.trans h'.1
    cases heq
    have hpeek : peek (u.atDepth s.depth) = .ok none (u.atDepth s.depth) :=
      peek_looked hhalts.peek_eq _
    obtain ⟨u', hu', -⟩ := (LooksLike.of_same hsame).peek_eq hpeek
    exact ⟨u', hu'⟩

/-- A repetition whose runs all end does so too. -/
theorem repetition_ne_endless (hs : s.Reachable text) (hg : g.Scriptless)
    (helement : element.Scriptless) (hlt : s.depth < g.maxDepth)
    (hends : ∀ v : Stream lexer, v.Reachable text →
      (∀ p ∈ terminator, valueOf (p.run g v) ≠ .error .endless) ∧
        valueOf (element.run g v) ≠ .error .endless) :
    valueOf ((Segment.repetition terminator element).run g s) ≠ .error .endless := by
  obtain ⟨os, xs, t, r, hrepeats, -, -, hhalts⟩ :=
    exists_repeats hg helement terminator (hs.nest (s.depth + 1))
  obtain ⟨hterminator, hruns⟩ := hends t (hrepeats.reachable (hs.nest _))
  cases r with
  | ok u =>
    obtain ⟨o, v, hmatch, -⟩ := repetition_match hs hg helement hlt hrepeats hhalts
    rw [hmatch.1]
    exact nofun
  | error e =>
    rw [repetition_error hs hg helement hlt hrepeats hhalts]
    rintro he
    cases he
    exact hhalts.ne_endless hterminator hruns rfl

/-- A repetition below the depth limit runs elements in a row, each of which consumes a token, as
long as its terminator, which it tries before each of them, does not match and a token is left. It
then matches with the list of their data. It ends with an error where an element fails, where one
matches without consuming a token, or where a run in it ends with one. At the limit it is too deep
like every segment. -/
theorem repetition_outcome (hs : s.Reachable text) (hg : g.Scriptless)
    (terminator : Option Segment) (helement : element.Scriptless) :
    let repetition := Segment.repetition terminator element
    let inside := s.atDepth (s.depth + 1)
    (s.depth < g.maxDepth →
      (∃ os xs t r, Repeats g terminator element inside os t ∧ inside.Gives xs t ∧
        os.length ≤ xs.length ∧ Halts g terminator element t r) ∧
      (∀ os t u, Repeats g terminator element inside os t →
        Halts g terminator element t (.ok u) → ∃ o v, repetition.Matches g s o v ∧
          o.data? = some (.list (collected os)) ∧ Same v (u.atDepth s.depth)) ∧
      (∀ os t e, Repeats g terminator element inside os t →
        Halts g terminator element t (.error e) →
          valueOf (repetition.run g s) = .error e) ∧
      ((∀ v : Stream lexer, v.Reachable text →
          (∀ p ∈ terminator, valueOf (p.run g v) ≠ .error .endless) ∧
          valueOf (element.run g v) ≠ .error .endless) →
        valueOf (repetition.run g s) ≠ .error .endless)) ∧
    (g.maxDepth ≤ s.depth → EndsTooDeep (repetition.run g s) ∨
      ∃ e seen, peek s = .error e seen ∧
        valueOf (repetition.run g s) = .error (.error (.reading e))) ∧
    (terminator = none → ∀ o v, repetition.Matches g s o v → ∃ u, peek v = .ok none u) ∧
    ∀ (v w : Stream lexer) (o : Outcome), v.Reachable text → element.Matches g v o w →
      ∃ xs, v.Gives xs w ∧ (o.progress = 0 ↔ xs = []) := by
  intro repetition inside
  refine ⟨fun hlt => ⟨exists_repeats hg helement terminator (hs.nest _), ?_, ?_, ?_⟩,
    fun hle => ?_, ?_, ?_⟩
  · exact fun os t u hrepeats h => repetition_match hs hg helement hlt hrepeats h
  · exact fun os t e hrepeats h => repetition_error hs hg helement hlt hrepeats h
  · exact repetition_ne_endless hs hg helement hlt
  · cases hp : peek s with
    | error e seen => exact .inr ⟨e, seen, rfl, by rw [run_of_look_error hp]; rfl⟩
    | ok found seen => exact .inl (endsTooDeep_of_limit_le hp hle repetition)
  · rintro rfl o v hmatch
    exact untilEnd_exhausts hs hg helement hmatch
  · exact fun v w o hv h => consumes_run hg helement hv h

/-- Two words behind each other, to the end of the text. -/
theorem repetition_outcome_words :
    let s : Stream wordsAndBlanks := .ofString "a a "
    let words := Segment.repetition none (.ofKind "word")
    s.Reachable "a a " ∧ Grammar.Scriptless {} ∧ (Segment.ofKind "word").Scriptless ∧
      ∃ os xs t u o v, Repeats {} none (.ofKind "word") (s.atDepth 1) os t ∧
        (s.atDepth 1).Gives xs t ∧ os.length ≤ xs.length ∧
        Halts {} none (.ofKind "word") t (.ok u) ∧ words.Matches {} s o v ∧
        o.data? = some (.list (collected os)) ∧ ∃ w, peek v = .ok none w := by
  intro s words
  have hg : Grammar.Scriptless {} := nofun
  have helement : (Segment.ofKind "word").Scriptless :=
    Segment.throughout_of_parts_eq_nil rfl trivial
  obtain ⟨hbelow, -, hexhausts, -⟩ :=
    repetition_outcome (g := {}) (.start : s.Reachable "a a ") hg none helement
  obtain ⟨⟨os, xs, t, r, hrepeats, hgives, hlength, hhalts⟩, hok, herror, -⟩ := hbelow (by decide)
  obtain ⟨o, hmatch⟩ : ∃ o, words.Matches {} s o _ := matches_of_isMatch (by decide +kernel)
  cases r with
  | error e =>
    have hvalue := herror os t e hrepeats hhalts
    rw [hmatch.1] at hvalue
    cases hvalue
  | ok u =>
    obtain ⟨o', v, hmatch', hdata, -⟩ := hok os t u hrepeats hhalts
    exact ⟨.start, hg, helement, os, xs, t, u, o', v, hrepeats, hgives, hlength, hhalts, hmatch',
      hdata, hexhausts rfl o' v hmatch'⟩

/-- At the depth limit a repetition does not match, although no token is left; and an element that
fails has come further than what it consumed, which is nothing. -/
theorem untilEnd_tooDeep :
    (¬ ∀ (lexer : Lexer) (text : String) (g : Grammar) (element : Segment)
        (s seen : Stream lexer), s.Reachable text → g.Scriptless → element.Scriptless →
        (∀ v : Stream lexer, v.Reachable text → valueOf (element.run g v) ≠ .error .endless) →
        peek s = .ok none seen → ∃ o t, (Segment.untilEnd element).Matches g s o t ∧
          o.data? = some (.list [])) ∧
    (¬ ∀ (lexer : Lexer) (text : String) (g : Grammar) (element : Segment) (s t : Stream lexer)
        (o : Outcome), s.Reachable text → g.Scriptless → element.Scriptless →
        element.run g s = .ok o t → (o.progress = 0 ↔ s.Gives [] t)) ∧
    let s (text : String) : Stream wordsAndBlanks := .ofString text
    valueOf ((Segment.untilEnd (.ofKind "word")).run { maxDepth := 0 } (s "")) =
        .error (.error (.tooDeep .start 0)) ∧
      ∃ o t, twoWords.toSegment.run {} (s "a") = .ok o t ∧ o.progress = 1 ∧ (s "a").Gives [] t := by
  have hword : (Segment.ofKind "word").Scriptless :=
    Segment.throughout_of_parts_eq_nil rfl trivial
  have hlimit : valueOf ((Segment.untilEnd (.ofKind "word")).run { maxDepth := 0 }
      (.ofString "" : Stream wordsAndBlanks)) = .error (.error (.tooDeep .start 0)) := rfl
  have htwo : ∃ o t, twoWords.toSegment.run {} (.ofString "a" : Stream wordsAndBlanks) = .ok o t ∧
      o.progress = 1 ∧ (Stream.ofString "a" : Stream wordsAndBlanks).Gives [] t := by
    obtain ⟨o, hm, t, ht⟩ : ∃ o, Segment.Fails {} (.ofString "a" : Stream wordsAndBlanks)
        twoWords.toSegment o := fails_of_isMatch (by decide +kernel)
    have hprogress : (valueOf (twoWords.toSegment.run {}
        (.ofString "a" : Stream wordsAndBlanks))).toOption.map Outcome.progress = some 1 := by
      decide +kernel
    rw [ht] at hprogress
    obtain ⟨found, seen, hp⟩ := peek_of_run ht
    refine ⟨o, t, ht, Option.some.inj hprogress, .none ?_⟩
    exact (looksLike_of_givesUp .start hp (.inl ⟨o, ht, hm⟩)).symm
  refine ⟨fun h => ?_, fun h => ?_, hlimit, htwo⟩
  · have hends (v : Stream wordsAndBlanks) :
        valueOf ((Segment.ofKind "word").run { maxDepth := 0 } v) ≠ .error .endless := by
      intro hvalue
      cases hp : peek v with
      | error e seen => rw [run_of_look_error hp] at hvalue; cases hvalue
      | ok found seen =>
        obtain ⟨e, u, he, position, limit, rfl⟩ :=
          endsTooDeep_of_limit_le (g := { maxDepth := 0 }) hp (Nat.zero_le _) (.ofKind "word")
        rw [he] at hvalue
        cases hvalue
    obtain ⟨o, t, hmatch, -⟩ := h wordsAndBlanks "" { maxDepth := 0 } (.ofKind "word")
      (.ofString "") _ .start nofun hword (fun v _ => hends v) rfl
    rw [hmatch.1] at hlimit
    cases hlimit
  · obtain ⟨o, t, ht, hprogress, hgives⟩ := htwo
    have hwords : twoWords.toSegment.Scriptless :=
      Rule.scriptless_toSegment (List.forall_mem_cons.2 ⟨hword, List.forall_mem_singleton.2 hword⟩)
    have hzero := (h wordsAndBlanks "a" {} _ _ t o .start nofun hwords ht).2 hgives
    omega

end Descent
