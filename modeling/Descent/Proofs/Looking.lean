import Descent.Proofs.Choices

/-!
# Streams that look alike

A run begins with a look at the next token, so two streams that show the same and are left the same
by a look are the same to every run, whether the one has looked already or the other was put back.
That is what a run without a match leaves behind, and what the loops of a choice, a list and a
repetition rely on: what they try next begins where the attempt before it began.

* `Stream.LooksLike`: a look at the one is a look at the other.
* `Stream.LooksLike.meets_run`: runs from such streams.
* `Segment.Fails.again`: behind a run that failed the stream looks as it did before.
* `run_match_of_begins`, `run_failure_of_begins`: what becomes of the result of a body.
* `run_of_look_error`: where no look succeeds no segment begins.
-/
namespace Descent

open Descent.Stream

variable {lexer : Lexer} {text : String} {g : Grammar} {s t u v seen : Stream lexer}
  {found : Option Token} {p : Segment} {o : Outcome}

theorem Meets.valueOf_eq {α : Type} {E : Stream lexer → Stream lexer → Prop}
    {r r' : EStateM.Result Stop (Stream lexer) α} (h : Meets E (fun _ => False) r r') :
    valueOf r = valueOf r' := by
  cases h with
  | ok | error => rfl
  | stopped _ h => exact h.elim

/-- Looks at the two streams show the same and leave what differs in its journal only. -/
structure Stream.LooksLike (s t : Stream lexer) : Prop where
  shown : valueOf (peek s) = valueOf (peek t)
  left : Same (stateOf (peek s)) (stateOf (peek t))

namespace Stream.LooksLike

theorem refl (s : Stream lexer) : LooksLike s s := ⟨rfl, .refl _⟩

theorem symm (h : LooksLike s t) : LooksLike t s := ⟨h.shown.symm, h.left.symm⟩

theorem trans (h : LooksLike s t) (h' : LooksLike t u) : LooksLike s u :=
  ⟨h.shown.trans h'.shown, h.left.trans h'.left⟩

theorem depth_eq (h : LooksLike s t) : s.depth = t.depth := by
  rw [← (peek_frame s).2, ← (peek_frame t).2, h.left.depth]

theorem of_same (h : Same s t) : LooksLike s t :=
  ⟨h.view.look.1, Coupling.look h⟩

theorem record (s : Stream lexer) (e : Event) : LooksLike (s.record e) s :=
  .of_same ⟨rfl, rfl, rfl, rfl⟩

/-- A look that succeeds can be repeated. -/
theorem of_peek (hp : peek s = .ok found seen) : LooksLike seen s := by
  refine ⟨?_, ?_⟩ <;> rw [peek_again hp, hp]
  exact .refl _

theorem of_bisimilar (h : Bisimilar s t) : LooksLike s t := by
  obtain ⟨c, s', t', -, hsame, hp⟩ := h.peek_cases
  rcases hp with ⟨a, hs, ht⟩ | ⟨e, hs, ht⟩ <;> refine ⟨?_, ?_⟩ <;> rw [hs, ht]
  · rfl
  · exact hsame
  · rfl
  · exact hsame

theorem peek_eq (h : LooksLike s t) (hp : peek t = .ok found v) :
    ∃ u, peek s = .ok found u ∧ Same u v := by
  obtain ⟨hv, hl⟩ := h
  rw [hp] at hv hl
  cases hs : peek s with
  | ok a u => rw [hs] at hv hl; cases hv; exact ⟨u, rfl, hl⟩
  | error e u => rw [hs] at hv; cases hv

theorem atDepth (h : LooksLike s t) (d : Nat) : LooksLike (s.atDepth d) (t.atDepth d) := by
  obtain ⟨hv, hl⟩ := h
  refine ⟨?_, ?_⟩ <;> rw [peek_atDepth, peek_atDepth] <;> cases hs : peek s <;>
    cases ht : peek t <;> rw [hs, ht] at hv hl <;> cases hv
  · rfl
  · rfl
  · exact ⟨hl.cursor, hl.buffered, hl.lastEnd, rfl⟩
  · exact ⟨hl.cursor, hl.buffered, hl.lastEnd, rfl⟩

theorem position (h : LooksLike s t) :
    valueOf (Stream.position s) = valueOf (Stream.position t) ∧
      Same (stateOf (Stream.position s)) (stateOf (Stream.position t)) := by
  obtain ⟨hv, hl⟩ := h
  rw [stateOf_position, stateOf_position, position_eq, position_eq]
  cases hs : peek s <;> cases ht : peek t <;> rw [hs, ht] at hv hl <;> cases hv
  · next found s' t' =>
    cases found with
    | some token => exact ⟨rfl, hl⟩
    | none => exact ⟨congrArg (fun c : Cursor => Except.ok c.position) hl.cursor, hl⟩
  · exact ⟨rfl, hl⟩

theorem meets_position (h : LooksLike s t) :
    Meets Same (fun _ => False) (Parse.position s) (Parse.position t) := .ofPull h.position

/-- So runs from streams that look alike are the same. -/
theorem meets_run (h : LooksLike s t) (p : Segment) :
    Meets Same (fun _ => False) (p.run g s) (p.run g t) := by
  have hposition : Meets Same (fun _ => False) (Parse.position (s.atDepth (s.depth + 1)))
      (Parse.position (t.atDepth (t.depth + 1))) := by
    rw [h.depth_eq]
    exact (h.atDepth _).meets_position
  unfold Segment.run
  rw [h.depth_eq]
  cases g.maxDepth - t.depth with
  | zero => exact meets_deeper (hposition.bind fun _ _ _ _ _ h' => mirrors_refuse _ _ _ h')
  | succ levels =>
    exact meets_deeper (meets_attempt _
      (mirrors_body_same (mirrors_runWithin_same g levels) g p.shape) hposition)

end Stream.LooksLike

/-! ## Ends of a run -/

/-- From here the segment matches, with this outcome and up to here. -/
def Segment.Matches (g : Grammar) (p : Segment) (s : Stream lexer) (o : Outcome)
    (t : Stream lexer) : Prop :=
  p.run g s = .ok o t ∧ o.isMatch = true

theorem run_reachable (hs : s.Reachable text) (h : p.run g s = .ok o t) : t.Reachable text := by
  have hkept := (Segment.keeps_run g p s hs).1
  rwa [h] at hkept

/-- A run that ends without an error has looked at its first token. -/
theorem peek_of_run (h : p.run g s = .ok o t) : ∃ found seen, peek s = .ok found seen := by
  cases hp : peek s with
  | ok found seen => exact ⟨found, seen, rfl⟩
  | error e seen =>
    have hposition : position (s.atDepth (s.depth + 1)) =
        .error e (seen.atDepth (s.depth + 1)) := by
      rw [position_eq, peek_atDepth, hp]
    rw [run_eq, guarded] at h
    split at h
    · rw [deeper_apply, attempt_apply, hposition] at h
      cases h
    · rw [deeper_apply, tooDeep, bind_apply, position_apply, hposition] at h
      cases h

/-- At the limit every segment ends too deep, where a look succeeds. -/
theorem endsTooDeep_of_limit_le (hp : peek s = .ok found seen) (hle : g.maxDepth ≤ s.depth)
    (p : Segment) : EndsTooDeep (p.run g s) := by
  obtain ⟨start, hstart⟩ := position_of_looked (peek_again hp)
  have hd : seen.depth = s.depth := by have := (peek_frame s).2; rwa [hp] at this
  rw [run_of_peek hp, run_of_limit_le hstart (hd ▸ hle)]
  exact ⟨_, _, rfl, start, g.maxDepth, rfl⟩

/-- So a run that ends without an error began below the limit. -/
theorem lt_of_run (h : p.run g s = .ok o t) : s.depth < g.maxDepth := by
  obtain ⟨found, seen, hp⟩ := peek_of_run h
  refine Nat.lt_of_not_le fun hle => ?_
  obtain ⟨e, t', he, -⟩ := endsTooDeep_of_limit_le hp hle p
  rw [h] at he
  cases he

/-- Behind a run without a match the stream looks as it did before. -/
theorem looksLike_of_givesUp (hs : s.Reachable text) (hp : peek s = .ok found seen)
    (h : GivesUp (p.run g s) t) : t.LooksLike s :=
  (LooksLike.of_bisimilar (bisimilar_of_givesUp hs hp h)).trans (.of_peek hp)

theorem run_ok_of_looksLike (h : p.run g t = .ok o v) (hst : s.LooksLike t) :
    ∃ u, p.run g s = .ok o u ∧ Same u v := (h ▸ hst.meets_run p).exists_ok

theorem Segment.Matches.of_looksLike (h : p.Matches g t o v) (hst : s.LooksLike t) :
    ∃ u, p.Matches g s o u ∧ Same u v := by
  obtain ⟨u, hu, hsame⟩ := run_ok_of_looksLike h.1 hst
  exact ⟨u, ⟨hu, h.2⟩, hsame⟩

theorem Segment.Fails.again (h : p.Fails g t o) (hs : s.Reachable text) (hst : s.LooksLike t) :
    ∃ u, p.run g s = .ok o u ∧ u.Reachable text ∧ u.LooksLike t := by
  obtain ⟨hm, v, hv⟩ := h
  obtain ⟨u, hu, -⟩ := run_ok_of_looksLike hv hst
  obtain ⟨found, seen, hp⟩ := peek_of_run hu
  exact ⟨u, hu, run_reachable hs hu, (looksLike_of_givesUp hs hp (.inl ⟨o, hu, hm⟩)).trans hst⟩

theorem run_error_of_looksLike {e : Stop} (h : p.run g t = .error e v) (hst : s.LooksLike t) :
    ∃ u, p.run g s = .error e u := by
  obtain ⟨u, hu, -⟩ : ∃ u, p.run g s = .error e u ∧ Same u v := (h ▸ hst.meets_run p).exists_error
  exact ⟨u, hu⟩

/-- A run matches, or it fails, or it ends with an error. -/
theorem run_cases (g : Grammar) (p : Segment) (s : Stream lexer) :
    (∃ o t, p.Matches g s o t) ∨ (∃ o, p.Fails g s o) ∨ ∃ e t, p.run g s = .error e t := by
  cases h : p.run g s with
  | error e t => exact .inr (.inr ⟨e, t, rfl⟩)
  | ok o t =>
    cases hm : o.isMatch with
    | true => exact .inl ⟨o, t, h, hm⟩
    | false => exact .inr (.inl ⟨o, hm, t, h⟩)

/-! ## The run around a body -/

/-- What has run one level deeper gives its result one level up. -/
def risen : EStateM.Result Stop (Stream lexer) Outcome → EStateM.Result Stop (Stream lexer) Outcome
  | .ok o s => .ok o (s.atDepth (s.depth - 1))
  | .error e s => .error e (s.atDepth (s.depth - 1))

theorem sameView_risen (r : EStateM.Result Stop (Stream lexer) Outcome) :
    (stateOf (risen r)).SameView (stateOf r) := by
  cases r <;> exact ⟨rfl, rfl, rfl⟩

theorem guarded_of_position {start : Position} (hlt : s.depth < g.maxDepth)
    (hp : position (s.atDepth (s.depth + 1)) = .ok start seen) (p : Segment)
    (body : Parse lexer Outcome) :
    guarded g p.options body s = risen (settled p.options start body (p.opened start seen)) := by
  have hattempt : attempt p.options body (s.atDepth (s.depth + 1)) =
      settled p.options start body (p.opened start seen) := by
    rw [attempt_apply, hp]
    rfl
  rw [guarded, if_pos hlt, deeper_apply, hattempt]
  cases settled p.options start body (p.opened start seen) <;> rfl

theorem run_of_position {start : Position} (hlt : s.depth < g.maxDepth)
    (hp : position (s.atDepth (s.depth + 1)) = .ok start seen) (p : Segment) :
    p.run g s =
      risen (settled p.options start (p.shape.body g (Segment.run g)) (p.opened start seen)) := by
  rw [run_eq, guarded_of_position hlt hp]

/-- Where a look succeeds, every segment below the limit begins. -/
theorem exists_begins (hlt : s.depth < g.maxDepth) (hp : peek s = .ok found seen) (p : Segment) :
    ∃ u, p.Begins g s u := by
  obtain ⟨start, hstart⟩ := position_of_looked (peek_again hp)
  refine ⟨_, hlt, start, seen.atDepth (s.depth + 1), ?_, rfl⟩
  rw [position_apply, position_of_peek hp, hstart]

/-- The body begins where the segment does, one level deeper. -/
theorem Segment.Begins.looksLike (h : p.Begins g s u) : u.LooksLike (s.atDepth (s.depth + 1)) := by
  obtain ⟨-, start, seen, hp, rfl⟩ := h
  obtain ⟨⟨found, hpeek⟩, -⟩ := position_cases (position_of_parse hp)
  exact (LooksLike.record _ _).trans (.of_peek hpeek)

theorem Segment.Begins.reachable (h : p.Begins g s u) (hs : s.Reachable text) :
    u.Reachable text := by
  obtain ⟨-, start, seen, hp, rfl⟩ := h
  have hlook := (hs.nest (s.depth + 1)).position
  rw [position_of_parse hp] at hlook
  exact .note hlook _

/-- It has looked at its first token, which gives the start of the run. -/
theorem Segment.Begins.exists_start (h : p.Begins g s u) (hs : s.Reachable text) :
    ∃ start w, position (s.atDepth (s.depth + 1)) = .ok start w ∧ u = p.opened start w ∧
      w.Reachable text ∧ ∀ d, position (w.atDepth d) = .ok start (w.atDepth d) := by
  obtain ⟨-, start, w, hp, rfl⟩ := h
  obtain ⟨⟨found, hpeek⟩, hagain⟩ := position_cases (position_of_parse hp)
  obtain ⟨start', hstart⟩ := position_of_looked (peek_again hpeek)
  have hlook := (hs.nest (s.depth + 1)).position
  rw [position_of_parse hp] at hlook
  obtain rfl : start = start' := by
    have hsame : position w = .ok start' w := hstart w.depth
    rw [hagain] at hsame
    cases hsame
    rfl
  exact ⟨start, w, position_of_parse hp, rfl, hlook, hstart⟩

/-- The match of a body is the match of the run. -/
theorem run_match_of_position {start : Position} (hlt : s.depth < g.maxDepth)
    (hp : position (s.atDepth (s.depth + 1)) = .ok start seen)
    (hb : p.shape.body g (Segment.run g) (p.opened start seen) = .ok o t) (hm : o.isMatch = true) :
    p.run g s = .ok (o.settleMatch o.data? p.options ⟨start, start.latest t.lastEnd⟩ seen.offset
      t.offset) (t.atDepth s.depth) := by
  have hrun := run_of_position hlt hp p
  rw [settled_of_match hb hm] at hrun
  have hd := Segment.depth_run g p s
  rw [hrun] at hd
  rw [hrun, ← hd]
  rfl

theorem run_match_of_begins (h : p.Begins g s u)
    (hb : p.shape.body g (Segment.run g) u = .ok o t) (hm : o.isMatch = true) :
    ∃ span, p.run g s =
      .ok (o.settleMatch o.data? p.options span u.offset t.offset) (t.atDepth s.depth) := by
  obtain ⟨hlt, start, seen, hp, rfl⟩ := h
  have hrun := run_match_of_position hlt (position_of_parse hp) hb hm
  exact ⟨_, hrun⟩

/-- The failure of a body is the failure of the run. -/
theorem run_failure_of_begins (h : p.Begins g s u)
    (hb : p.shape.body g (Segment.run g) u = .ok o t) (hm : o.isMatch = false) :
    ∃ f t', o.verdict = .failed f ∧
      p.run g s = .ok (o.settleFailure f u.offset t.offset) t' := by
  obtain ⟨hlt, start, seen, hp, rfl⟩ := h
  have hrun := run_of_position hlt (position_of_parse hp) p
  obtain ⟨f, e, hf, hset⟩ : ∃ f e, _ ∧ settled p.options start _ _ = _ :=
    settled_of_failure hb hm
  rw [hset] at hrun
  exact ⟨f, _, hf, hrun⟩

/-- A run that ends without an error has a body that did. -/
theorem run_ok_of_begins (h : p.Begins g s u) (hrun : p.run g s = .ok o t) :
    ∃ inside behind, p.shape.body g (Segment.run g) u = .ok inside behind ∧
      inside.isMatch = o.isMatch ∧
      (o.isMatch = true → t = behind.atDepth s.depth ∧ ∃ span,
        o = inside.settleMatch inside.data? p.options span u.offset behind.offset) := by
  cases hb : p.shape.body g (Segment.run g) u with
  | error e behind =>
    obtain ⟨s', hs'⟩ := run_error_of_begins h hb
    rw [hs'] at hrun
    cases hrun
  | ok inside behind =>
    cases hm : inside.isMatch with
    | true =>
      obtain ⟨span, hmatch⟩ := run_match_of_begins h hb hm
      rw [hrun] at hmatch
      cases hmatch
      exact ⟨inside, behind, rfl, hm, fun _ => ⟨rfl, span, rfl⟩⟩
    | false =>
      obtain ⟨f, t', -, hfailure⟩ := run_failure_of_begins h hb hm
      rw [hrun] at hfailure
      cases hfailure
      exact ⟨inside, behind, rfl, hm, fun hm' => by cases hm'⟩

theorem begins_of_run (h : p.run g s = .ok o t) : ∃ u, p.Begins g s u := by
  obtain ⟨found, seen, hp⟩ := peek_of_run h
  exact exists_begins (lt_of_run h) hp p

/-- Where a run ends without an error one level deeper, any segment around it begins. -/
theorem begins_of_inside {q : Segment} (h : q.run g (s.atDepth (s.depth + 1)) = .ok o t)
    (p : Segment) : ∃ u, p.Begins g s u := by
  have hlt : s.depth + 1 < g.maxDepth := lt_of_run h
  obtain ⟨found, seen, hp⟩ := peek_of_run h
  rw [peek_atDepth] at hp
  split at hp
  · next hs => exact exists_begins (Nat.lt_of_succ_lt hlt) hs p
  · cases hp

/-- Where a look meets text that holds no token, every segment ends with the error of the look. -/
theorem run_of_look_error {e : ReadError} (hp : peek s = .error e seen) (p : Segment) :
    p.run g s = .error (.error (.reading e)) (seen.atDepth s.depth) := by
  have hposition : position (s.atDepth (s.depth + 1)) =
      .error e (seen.atDepth (s.depth + 1)) := by
    rw [position_eq, peek_atDepth, hp]
  rw [run_eq, guarded]
  split
  · rw [deeper_apply, attempt_apply, hposition]
    rfl
  · rw [deeper_apply, tooDeep, bind_apply, position_apply, hposition]
    rfl

end Descent
