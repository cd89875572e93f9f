import Descent.Proofs.Attempts
import Descent.Proofs.Calls
import Mathlib.Data.List.Induction

/-!
# Ordered choice

A choice runs its alternatives one after the other on one stream. Each of them that fails leaves the
stream as good as where it began, and no run can tell such streams apart, so every alternative runs
as it would have run alone. The choice ends as the first alternative that does not fail, and
otherwise with the failure that came furthest.

* `Bisimilar.meets_run`: runs from streams that no question tells apart.
* `Fails.step`: an alternative that fails alone fails behind others too, and leaves it to the next.
* `foldl_further`: what is left of several failures is the first of those that came furthest.
* `choice_outcome`: the choice against its alternatives alone.
-/
namespace Descent

open Descent.Stream

variable {lexer : Lexer} {text : String} {g : Grammar} {s t u w seen : Stream lexer}
  {found : Option Token}

/-! ## Streams that can not be told apart -/

theorem Bisimilar.atDepth (h : Bisimilar s t) (d : Nat) : Bisimilar (s.atDepth d) (t.atDepth d) :=
  ⟨h.1, h.2.1, rfl⟩

theorem Bisimilar.offset_eq (h : Bisimilar s t) : s.offset = t.offset := by
  obtain ⟨⟨c, hs, ht⟩, -, -⟩ := h
  rw [hs.offset_eq, ht.offset_eq]

/-- After a look they differ in their journals only. -/
theorem Bisimilar.meets_position (h : Bisimilar s t) :
    Meets Same (fun _ => False) (Parse.position s) (Parse.position t) := by
  obtain ⟨c, s', t', -, hsame, hp⟩ := h.peek_cases
  refine .ofPull ?_
  rw [stateOf_position, stateOf_position, position_eq, position_eq]
  rcases hp with ⟨a, hs, ht⟩ | ⟨e, hs, ht⟩ <;> rw [hs, ht]
  · cases a with
    | some token => exact ⟨rfl, hsame⟩
    | none => exact ⟨congrArg (fun c : Cursor => Except.ok c.position) hsame.cursor, hsame⟩
  · exact ⟨rfl, hsame⟩

/-- Nothing in a run reads the journal. -/
theorem mirrors_body_same {run : Runner lexer}
    (hrun : ∀ p, Mirrors Same (fun _ => False) (run p) (run p)) (g : Grammar) (shape : Shape) :
    Mirrors Same (fun _ => False) (shape.body g run) (shape.body g run) :=
  mirrors_body_self (fun _ _ h => h.depth) (Q := fun _ => True) (fun p _ => hrun p)
    (fun _ => rfl) (fun _ _ _ => trivial)
    (shape.scriptIn fun request => request.forthright_of_none (fun _ => id) rfl) fun _ _ => trivial

theorem mirrors_runWithin_same (g : Grammar) (levels : Nat) (p : Segment) :
    Mirrors Same (fun _ => False) (p.runWithin g levels : Parse lexer Outcome)
      (p.runWithin g levels) := by
  induction levels generalizing p with
  | zero => exact mirrors_deeper (mirrors_position.bind fun _ => mirrors_refuse _)
  | succ levels ih => exact mirrors_deeper (mirrors_attempt _ (mirrors_body_same ih g p.shape))

/-- So runs from streams that no question tells apart are the same. -/
theorem Bisimilar.meets_run (h : Bisimilar s t) (p : Segment) :
    Meets Same (fun _ => False) (p.run g s) (p.run g t) := by
  have hposition : Meets Same (fun _ => False) (Parse.position (s.atDepth (s.depth + 1)))
      (Parse.position (t.atDepth (t.depth + 1))) := by
    rw [h.2.2]
    exact (h.atDepth _).meets_position
  unfold Segment.run
  rw [h.2.2]
  cases g.maxDepth - t.depth with
  | zero => exact meets_deeper (hposition.bind fun _ _ _ _ _ h' => mirrors_refuse _ _ _ h')
  | succ levels =>
    exact meets_deeper (meets_attempt _
      (mirrors_body_same (mirrors_runWithin_same g levels) g p.shape) hposition)

/-! ## Streams that have looked -/

theorem position_of_peek (hp : peek s = .ok found seen) (d : Nat) :
    position (s.atDepth d) = position (seen.atDepth d) := by
  rw [position_eq, position_eq, peek_atDepth, peek_atDepth, hp, peek_again hp]

/-- A look changes nothing for the run behind it. -/
theorem run_of_peek (hp : peek s = .ok found seen) (p : Segment) : p.run g s = p.run g seen := by
  have hd : seen.depth = s.depth := by have := (peek_frame s).2; rwa [hp] at this
  have hposition := position_of_peek hp (s.depth + 1)
  rw [run_eq, run_eq]
  unfold guarded
  rw [hd, deeper_apply, deeper_apply, deeper_apply, deeper_apply, attempt_apply, attempt_apply,
    tooDeep, bind_apply, bind_apply, position_apply, position_apply, hd, hposition]

theorem position_of_looked (hw : peek w = .ok found w) :
    ∃ start, ∀ d, position (w.atDepth d) = .ok start (w.atDepth d) := by
  simp only [position_eq, peek_atDepth, hw]
  cases found with
  | some token => exact ⟨token.start, fun _ => rfl⟩
  | none => exact ⟨w.cursor.position, fun _ => rfl⟩

theorem peek_looked (hw : peek w = .ok found w) (d : Nat) :
    peek (w.atDepth d) = .ok found (w.atDepth d) := by
  rw [peek_atDepth, hw]

/-- What a run has settled is settled: a segment around it that adds nothing gives it as it is. -/
theorem settled_of_run (hr : w.Reachable text) {start : Position}
    (hstart : ∀ d, position (w.atDepth d) = .ok start (w.atDepth d)) {p : Segment} {o : Outcome}
    (h : p.run g w = .ok o t) :
    (o.isMatch = true → ∀ label, o.settleMatch o.data? { label := label }
      ⟨start, start.latest t.lastEnd⟩ w.offset t.offset = o) ∧
    ∀ f, o.verdict = .failed f → w.offset ≤ f.reached ∧ o.progress = f.reached - w.offset := by
  rw [run_eq_guarded, guarded] at h
  split at h
  · obtain ⟨behind, hb, rfl⟩ := ok_of_deeper h
    rw [attempt_apply, hstart] at hb
    obtain ⟨begun, hb, hbegun, hreach⟩ : ∃ begun : Stream lexer,
        settled p.options start (p.shape.body g (innerRun g w)) begun = .ok o behind ∧
          begun.offset = w.offset ∧ begun.Reachable text :=
      ⟨_, hb, rfl, .note (.nest hr _) _⟩
    cases hi : p.shape.body g (innerRun g w) begun with
    | error e t => rw [settled, hi] at hb; cases hb
    | ok inside t =>
      cases hm : inside.isMatch with
      | true =>
        rw [settled_of_match hi hm] at hb
        cases hb
        refine ⟨fun _ label => ?_, fun f hf => by cases hf⟩
        rw [hbegun]
        exact Outcome.settleMatch_settleMatch _ _ _ _ _ _ _
      | false =>
        obtain ⟨f, e, -, hset⟩ : ∃ f e, _ ∧ settled p.options start _ begun = _ :=
          settled_of_failure hi hm
        rw [hset] at hb
        cases hb
        have hle : begun.offset ≤ (stateOf (p.shape.body g (innerRun g w) begun)).offset :=
          forward_body g _ p.shape begun hreach
        rw [hi] at hle
        refine ⟨fun hm => ?_, fun f hf => ?_⟩
        · cases hm
        · cases hf
          rw [← hbegun]
          exact ⟨Nat.le_trans hle (Nat.le_max_right _ _), rfl⟩
  · rw [deeper_apply, tooDeep, bind_apply, position_apply, hstart] at h
    cases h

/-! ## One alternative after the other -/

/-- From here the segment fails, with this outcome. -/
def Segment.Fails (g : Grammar) (w : Stream lexer) (p : Segment) (o : Outcome) : Prop :=
  o.isMatch = false ∧ ∃ t, p.run g w = .ok o t

/-- A stream of the text that no question tells apart from `w`. -/
structure Stream.Undone (text : String) (w u : Stream lexer) : Prop where
  bisimilar : Bisimilar u w
  reachable : u.Reachable text

/-- A segment that fails on its own fails the same behind others that were undone, and is undone. -/
theorem Segment.Fails.step (hw : peek w = .ok found w) (hu : Undone text w u) {p : Segment}
    {o : Outcome} (h : p.Fails g w o) : ∃ u', p.run g u = .ok o u' ∧ Undone text w u' := by
  obtain ⟨hm, t, ht⟩ := h
  obtain ⟨u', hu', -⟩ : ∃ u', p.run g u = .ok o u' ∧ Same u' t :=
    (ht ▸ hu.bisimilar.meets_run p).exists_ok
  obtain ⟨c, u₁, w₁, hc, hsame, hp⟩ := hu.bisimilar.peek_cases
  rw [hw] at hp
  obtain ⟨hpu, rfl⟩ : peek u = .ok found u₁ ∧ w = w₁ := by
    rcases hp with ⟨a, hpu, he⟩ | ⟨e, -, he⟩
    · cases he; exact ⟨hpu, rfl⟩
    · cases he
  obtain ⟨⟨d, hu'd, hu₁d⟩, hl, hd⟩ : Bisimilar u' u₁ :=
    bisimilar_of_givesUp hu.reachable hpu (.inl ⟨o, hu', hm⟩)
  refine ⟨u', hu', ⟨⟨d, hu'd, hsame.standsAt hu₁d⟩, hl.trans hsame.lastEnd,
    hd.trans hsame.depth⟩, ?_⟩
  have hkept := (Segment.keeps_run g p u hu.reachable).1
  rwa [hu'] at hkept

/-- Behind alternatives that fail on their own, a choice goes on as it would at its begin. -/
theorem choiceBody_append (hw : peek w = .ok found w) {before : List Segment} {os : List Outcome}
    (h : List.Forall₂ (Segment.Fails g w) before os) (hu : Undone text w u)
    (best : Option Outcome) (rest : List Segment) :
    ∃ u', Undone text w u' ∧ choiceBody (Segment.run g) best (before ++ rest) u =
      choiceBody (Segment.run g) (os.foldl (fun best o => some (further best o)) best) rest u' := by
  induction h generalizing u best with
  | nil => exact ⟨u, hu, rfl⟩
  | @cons p o before os hp _ ih =>
    obtain ⟨u₁, hrun, hu₁⟩ := hp.step hw hu
    obtain ⟨u', hu', hrest⟩ := ih hu₁ (some (further best o))
    refine ⟨u', hu', ?_⟩
    rw [List.cons_append, choiceBody, bind_apply, hrun]
    simp only [hp.1, Bool.false_eq_true, if_false]
    exact hrest

/-- The outcome is the first of those that came furthest. -/
def FirstFurthest (os : List Outcome) (o : Outcome) : Prop :=
  ∃ before after, os = before ++ o :: after ∧ (∀ b ∈ before, b.progress < o.progress) ∧
    ∀ a ∈ after, a.progress ≤ o.progress

theorem foldl_further {os : List Outcome} (h : os ≠ []) :
    ∃ o, FirstFurthest os o ∧
      os.foldl (fun best o => some (further best o)) none = some o := by
  induction os using List.reverseRecOn with
  | nil => exact absurd rfl h
  | append_singleton os x ih =>
    rw [List.foldl_append]
    by_cases hos : os = []
    · subst hos
      exact ⟨x, ⟨[], [], rfl, by simp, by simp⟩, rfl⟩
    · obtain ⟨o, ⟨before, after, rfl, hbefore, hafter⟩, hbest⟩ := ih hos
      rw [hbest]
      by_cases hlt : o.progress < x.progress
      · refine ⟨x, ⟨before ++ o :: after, [], rfl, fun b hb => ?_, by simp⟩, ?_⟩
        · rcases List.mem_append.1 hb with hb | hb
          · exact Nat.lt_trans (hbefore b hb) hlt
          · rcases List.mem_cons.1 hb with rfl | hb
            · exact hlt
            · exact Nat.lt_of_le_of_lt (hafter b hb) hlt
        · simp [further, hlt]
      · refine ⟨o, ⟨before, after ++ [x], by simp, hbefore, fun a ha => ?_⟩, ?_⟩
        · rcases List.mem_append.1 ha with ha | ha
          · exact hafter a ha
          · rw [List.mem_singleton.1 ha]
            exact Nat.le_of_not_lt hlt
        · simp [further, hlt]

/-! ## The choice -/

/-- The run matches or ends with an error, so that no alternative behind it is tried. -/
def Decides (r : EStateM.Result Stop (Stream lexer) Outcome) : Prop :=
  (∃ o t, r = .ok o t ∧ o.isMatch = true) ∨ ∃ e t, r = .error e t

/-- A choice that begins settles its alternatives, from a state that is as good as its own. -/
theorem choice_begins (hr : w.Reachable text) {start : Position}
    (hstart : ∀ d, position (w.atDepth d) = .ok start (w.atDepth d)) (hlt : w.depth < g.maxDepth)
    (alternatives : List Segment) :
    ∃ u, Undone text (w.atDepth (w.depth + 1)) u ∧
      let inner := settled { label := some "one of" } start
        (choiceBody (Segment.run g) none alternatives) u
      (∀ o t, inner = .ok o t →
        (Segment.choice alternatives).run g w = .ok o (t.atDepth (t.depth - 1))) ∧
      ∀ e t, inner = .error e t →
        (Segment.choice alternatives).run g w = .error e (t.atDepth (t.depth - 1)) := by
  obtain ⟨k, hk⟩ := hr.standsAt_place
  refine ⟨(w.atDepth (w.depth + 1)).record (.entered "one of" (w.depth + 1) start),
    ⟨⟨⟨_, hk, hk⟩, rfl, rfl⟩, .note (.nest hr _) _⟩, ?_⟩
  have hattempt : attempt { label := some "one of" } (choiceBody (Segment.run g) none alternatives)
      (w.atDepth (w.depth + 1)) = settled { label := some "one of" } start
        (choiceBody (Segment.run g) none alternatives)
        ((w.atDepth (w.depth + 1)).record (.entered "one of" (w.depth + 1) start)) := by
    rw [attempt_apply, hstart]
    rfl
  have hrun : (Segment.choice alternatives).run g w = Parse.deeper (attempt
      { label := some "one of" } (choiceBody (Segment.run g) none alternatives)) w := by
    rw [run_eq, guarded, if_pos hlt]
    rfl
  rw [hrun, deeper_apply, hattempt]
  refine ⟨fun o t h => ?_, fun e t h => ?_⟩ <;> rw [h]

/-- At the limit nothing begins. -/
theorem run_of_limit_le {start : Position}
    (hstart : ∀ d, position (w.atDepth d) = .ok start (w.atDepth d)) (h : g.maxDepth ≤ w.depth)
    (p : Segment) : p.run g w = .error (.error (.tooDeep start g.maxDepth)) w := by
  rw [run_eq, guarded, if_neg (Nat.not_lt_of_le h), deeper_apply, tooDeep, bind_apply,
    position_apply, hstart]
  rfl

theorem Segment.Fails.lt_limit {start : Position}
    (hstart : ∀ d, position (w.atDepth d) = .ok start (w.atDepth d)) {p : Segment} {o : Outcome}
    (h : p.Fails g w o) : w.depth < g.maxDepth := by
  obtain ⟨-, t, ht⟩ := h
  refine Nat.lt_of_not_le fun hle => ?_
  rw [run_of_limit_le hstart hle] at ht
  cases ht

/-- The failure of a choice that has no alternatives. -/
def noAlternatives (start : Position) (reached : Nat) : Outcome :=
  { verdict := .failed ⟨some "No alternatives to choose from", start, reached⟩ }

/-- Without alternatives a choice fails where it stands. -/
theorem choice_nil (hr : w.Reachable text) {start : Position}
    (hstart : ∀ d, position (w.atDepth d) = .ok start (w.atDepth d)) (hlt : w.depth < g.maxDepth) :
    ∃ t', (Segment.choice []).run g w = .ok (noAlternatives start w.offset) t' := by
  obtain ⟨u, hu, hok, -⟩ := choice_begins hr hstart hlt []
  obtain ⟨u', hposition, hsame⟩ : ∃ u', Parse.position u = .ok start u' ∧
      Same u' (w.atDepth (w.depth + 1)) := by
    refine Meets.exists_ok ?_
    have hmeets := hu.bisimilar.meets_position
    rwa [position_apply (w.atDepth _), hstart] at hmeets
  have hbody : choiceBody (Segment.run g) none [] u =
      .ok (.failure start "No alternatives to choose from") u' := by
    rw [choiceBody, bind_apply, hposition]
    rfl
  obtain ⟨f, e, hf, hset⟩ : ∃ f e, _ ∧ settled { label := some "one of" } start _ u = _ :=
    settled_of_failure hbody rfl
  cases hf
  have hwhole := hok _ _ hset
  rw [hu.bisimilar.offset_eq, hsame.view.offset_eq] at hwhole
  refine ⟨_, hwhole.trans (congrArg (EStateM.Result.ok · _) ?_)⟩
  rw [show (w.atDepth (w.depth + 1)).offset = w.offset from rfl]
  simp [Outcome.settleFailure, Outcome.failure, noAlternatives]

theorem answers_eq_of_same (hs : s.Reachable text) (h : Same s t) (qs : List Query) :
    answers s qs = answers t qs := by
  obtain ⟨k, hk⟩ := hs.standsAt_place
  exact (Bisimilar.of_same h hk).answers_eq qs

section

variable (hr : w.Reachable text) (hw : peek w = .ok found w)
include hr hw

/-- An alternative that matches, behind others that fail: the choice matches with its outcome. -/
theorem choice_match {before after : List Segment} {a : Segment} {os : List Outcome}
    (hbefore : List.Forall₂ (Segment.Fails g (w.atDepth (w.depth + 1))) before os) {o : Outcome}
    (ha : a.run g (w.atDepth (w.depth + 1)) = .ok o t) (hm : o.isMatch = true) :
    ∃ t', (Segment.choice (before ++ a :: after)).run g w = .ok o t' ∧
      Same t' (t.atDepth w.depth) := by
  obtain ⟨start, hstart⟩ := position_of_looked hw
  have hlt : w.depth < g.maxDepth := by
    refine Nat.lt_of_not_le fun hle => ?_
    rw [run_of_limit_le (w := w.atDepth (w.depth + 1)) hstart (Nat.le_succ_of_le hle)] at ha
    cases ha
  obtain ⟨u, hu, hok, -⟩ := choice_begins hr hstart hlt (before ++ a :: after)
  obtain ⟨u', hu', hbody⟩ := choiceBody_append (peek_looked hw _) hbefore hu none (a :: after)
  obtain ⟨t', ht', hsame⟩ : ∃ t', a.run g u' = .ok o t' ∧ Same t' t :=
    (ha ▸ hu'.bisimilar.meets_run a).exists_ok
  rw [choiceBody, bind_apply, ht'] at hbody
  simp only [hm, if_true] at hbody
  have hsettled := (settled_of_run (w := w.atDepth (w.depth + 1)) (.nest hr _) hstart ha).1 hm
    (some "one of")
  have hwhole := hok _ _ (settled_of_match hbody hm)
  rw [hsame.lastEnd, hu.bisimilar.offset_eq, hsame.view.offset_eq, hsettled] at hwhole
  have hdepth : t.depth = w.depth + 1 := by
    have hkept := Segment.depth_run g a (w.atDepth (w.depth + 1))
    rwa [ha] at hkept
  refine ⟨_, hwhole, hsame.cursor, hsame.buffered, hsame.lastEnd, ?_⟩
  rw [depth_atDepth, depth_atDepth, hsame.depth, hdepth, Nat.add_sub_cancel]

/-- An alternative that ends with an error, behind others that fail: so does the choice. -/
theorem choice_error {before after : List Segment} {a : Segment}
    {os : List Outcome}
    (hbefore : List.Forall₂ (Segment.Fails g (w.atDepth (w.depth + 1))) before os) {e : Stop}
    (ha : a.run g (w.atDepth (w.depth + 1)) = .error e t) :
    ∃ t', (Segment.choice (before ++ a :: after)).run g w = .error e t' := by
  obtain ⟨start, hstart⟩ := position_of_looked hw
  rcases Nat.lt_or_ge w.depth g.maxDepth with hlt | hle
  · obtain ⟨u, hu, -, herror⟩ := choice_begins hr hstart hlt (before ++ a :: after)
    obtain ⟨u', hu', hbody⟩ := choiceBody_append (peek_looked hw _) hbefore hu none (a :: after)
    obtain ⟨t', ht', -⟩ : ∃ t', a.run g u' = .error e t' ∧ Same t' t :=
      (ha ▸ hu'.bisimilar.meets_run a).exists_error
    rw [choiceBody, bind_apply, ht'] at hbody
    have hsettled : settled { label := some "one of" } start
        (choiceBody (Segment.run g) none (before ++ a :: after)) u =
          .error e (t'.returnTo u.checkpoint) := by
      rw [settled, hbody]
    exact ⟨_, herror _ _ hsettled⟩
  · -- At the limit the choice and its alternatives end in the same error.
    rw [run_of_limit_le (w := w.atDepth (w.depth + 1)) hstart (Nat.le_succ_of_le hle)] at ha
    cases ha
    exact ⟨w, run_of_limit_le hstart hle _⟩

/-- All alternatives fail: the choice fails with the first of the outcomes that came furthest. -/
theorem choice_failure {alternatives : List Segment} {os : List Outcome}
    (hfail : List.Forall₂ (Segment.Fails g (w.atDepth (w.depth + 1))) alternatives os)
    (hne : alternatives ≠ []) :
    ∃ o t', FirstFurthest os o ∧ o.isMatch = false ∧
      (Segment.choice alternatives).run g w = .ok o t' := by
  obtain ⟨start, hstart⟩ := position_of_looked hw
  have hall : ∀ o ∈ os, ∃ p, Segment.Fails g (w.atDepth (w.depth + 1)) p o := by
    clear hne
    induction hfail with
    | nil => simp
    | cons h _ ih => exact List.forall_mem_cons.2 ⟨⟨_, h⟩, ih⟩
  have hos : os ≠ [] := by
    rintro rfl
    cases hfail
    exact hne rfl
  obtain ⟨o, hfirst, hbest⟩ := foldl_further hos
  obtain ⟨p, hm, t, ht⟩ := hall o (by obtain ⟨before, after, rfl, -⟩ := hfirst; simp)
  have hlt : w.depth < g.maxDepth :=
    Nat.lt_of_succ_lt (Segment.Fails.lt_limit (w := w.atDepth (w.depth + 1)) hstart ⟨hm, t, ht⟩)
  obtain ⟨u, hu, hok, -⟩ := choice_begins hr hstart hlt alternatives
  obtain ⟨u', hu', hbody⟩ := choiceBody_append (peek_looked hw _) hfail hu none []
  rw [List.append_nil, hbest, choiceBody, pure_apply] at hbody
  obtain ⟨f, e, hf, hset⟩ : ∃ f e, _ ∧ settled { label := some "one of" } start _ u = _ :=
    settled_of_failure hbody hm
  obtain ⟨hle, hp⟩ :=
    (settled_of_run (w := w.atDepth (w.depth + 1)) (.nest hr _) hstart ht).2 f hf
  have hwhole := hok _ _ hset
  rw [hu.bisimilar.offset_eq, hu'.bisimilar.offset_eq, Outcome.settleFailure_of_le hf hle hp]
    at hwhole
  exact ⟨o, _, hfirst, hm, hwhole⟩

/-- The first alternative that does not fail decides what the choice is, and where it leads. -/
theorem choice_decided {before after : List Segment} {a : Segment} {os : List Outcome}
    (hbefore : List.Forall₂ (Segment.Fails g (w.atDepth (w.depth + 1))) before os)
    (ha : Decides (a.run g (w.atDepth (w.depth + 1)))) :
    let whole := (Segment.choice (before ++ a :: after)).run g w
    let alone := a.run g (w.atDepth (w.depth + 1))
    valueOf whole = valueOf alone ∧
      (valueOf whole ≠ .error .endless → ∀ qs,
        answers (stateOf whole) qs = answers ((stateOf alone).atDepth w.depth) qs) := by
  intro whole alone
  rcases ha with ⟨o, t, ha, hm⟩ | ⟨e, t, ha⟩
  · obtain ⟨t', hwhole, hsame⟩ : ∃ t', whole = .ok o t' ∧ Same t' (t.atDepth w.depth) :=
      choice_match hr hw hbefore ha hm
    have hr' : t'.Reachable text := by
      have hkept := (Segment.keeps_run g (.choice (before ++ a :: after)) w hr).1
      rwa [show (Segment.choice (before ++ a :: after)).run g w = .ok o t' from hwhole] at hkept
    rw [hwhole, show alone = .ok o t from ha]
    exact ⟨rfl, fun _ => answers_eq_of_same hr' hsame⟩
  · obtain ⟨t', hwhole⟩ : ∃ t', whole = .error e t' := choice_error hr hw hbefore ha
    rw [hwhole, show alone = .error e t from ha]
    refine ⟨rfl, fun hfinite qs => ?_⟩
    cases e with
    | endless => exact absurd rfl hfinite
    | error e =>
      have hback : Bisimilar t' w := bisimilar_of_givesUp hr hw (.inr ⟨e, hwhole⟩)
      have halone : Bisimilar t (w.atDepth (w.depth + 1)) :=
        bisimilar_of_givesUp (.nest hr _) (peek_looked hw _) (.inr ⟨e, ha⟩)
      exact (hback.answers_eq qs).trans ((halone.atDepth w.depth).answers_eq qs).symm

/-- A choice without alternatives fails below the depth limit, and ends too deep at it. -/
theorem choice_nil_cases :
    let whole := (Segment.choice []).run g w
    ∃ start, position w = .ok start w ∧ GivesUp whole (stateOf whole) ∧
      (w.depth < g.maxDepth → valueOf whole = .ok (noAlternatives start w.offset)) ∧
      (g.maxDepth ≤ w.depth → valueOf whole = .error (.error (.tooDeep start g.maxDepth))) := by
  intro whole
  obtain ⟨start, hstart⟩ := position_of_looked hw
  refine ⟨start, hstart w.depth, ?_⟩
  rcases Nat.lt_or_ge w.depth g.maxDepth with hlt | hle
  · obtain ⟨t, hwhole⟩ : ∃ t, whole = .ok (noAlternatives start w.offset) t :=
      choice_nil hr hstart hlt
    rw [hwhole]
    exact ⟨.inl ⟨_, rfl, rfl⟩, fun _ => rfl, fun hle => absurd hlt (Nat.not_lt_of_le hle)⟩
  · have hwhole : whole = .error (.error (.tooDeep start g.maxDepth)) w :=
      run_of_limit_le hstart hle _
    rw [hwhole]
    exact ⟨.inr ⟨_, rfl⟩, fun hlt => absurd hlt (Nat.not_lt_of_le hle), fun _ => rfl⟩

end

/-- From a state in which a look succeeds, a choice ends as the first of its alternatives that
matches or ends with an error, when each of them is run alone from that state, one level deeper. If
all fail, it fails with the first of the outcomes that came furthest, and nothing is read. Without
alternatives it fails where it stands, unless it stands at the depth limit itself. -/
theorem choice_outcome (hs : s.Reachable text) (hp : peek s = .ok found seen) :
    let inside := s.atDepth (s.depth + 1)
    (∀ before a after os, List.Forall₂ (Segment.Fails g inside) before os →
      Decides (a.run g inside) →
        let whole := (Segment.choice (before ++ a :: after)).run g s
        valueOf whole = valueOf (a.run g inside) ∧
          (valueOf whole ≠ .error .endless → ∀ qs,
            answers (stateOf whole) qs =
              answers ((stateOf (a.run g inside)).atDepth s.depth) qs)) ∧
    (∀ alternatives os, alternatives ≠ [] → List.Forall₂ (Segment.Fails g inside) alternatives os →
      let whole := (Segment.choice alternatives).run g s
      ∃ o, FirstFurthest os o ∧ valueOf whole = .ok o ∧
        ∀ qs, answers (stateOf whole) qs = answers s qs) ∧
    let whole := (Segment.choice []).run g s
    ∃ start, valueOf (position s) = .ok start ∧
      (s.depth < g.maxDepth → valueOf whole = .ok (noAlternatives start seen.offset)) ∧
      (g.maxDepth ≤ s.depth → valueOf whole = .error (.error (.tooDeep start g.maxDepth))) ∧
      ∀ qs, answers (stateOf whole) qs = answers s qs := by
  intro inside
  -- The look changes nothing for any of the runs, so they may begin behind it.
  have hr : seen.Reachable text := by have := hs.look; rwa [hp] at this
  have hw : peek seen = .ok found seen := peek_again hp
  have hd : seen.depth = s.depth := by have := (peek_frame s).2; rwa [hp] at this
  have hinside (p : Segment) : p.run g inside = p.run g (seen.atDepth (seen.depth + 1)) := by
    rw [hd]
    exact run_of_peek (s := inside) (by rw [peek_atDepth, hp]) p
  have hfails {ps : List Segment} {os : List Outcome}
      (h : List.Forall₂ (Segment.Fails g inside) ps os) :
      List.Forall₂ (Segment.Fails g (seen.atDepth (seen.depth + 1))) ps os :=
    h.imp fun p o ⟨hm, t, ht⟩ => ⟨hm, t, (hinside p).symm.trans ht⟩
  refine ⟨fun before a after os hbefore ha => ?_, fun alternatives os hne hfail => ?_, ?_⟩
  · rw [hinside a] at ha
    rw [run_of_peek hp, hinside a, ← hd]
    exact choice_decided hr hw (hfails hbefore) ha
  · obtain ⟨o, t', hfirst, hm, hwhole⟩ := choice_failure hr hw (hfails hfail) hne
    have hrun : (Segment.choice alternatives).run g s = .ok o t' :=
      (run_of_peek hp _).trans hwhole
    rw [hrun]
    exact ⟨o, hfirst, rfl, answers_of_givesUp hs hp (.inl ⟨o, hrun, hm⟩)⟩
  · obtain ⟨start, hstart, hgives, hcases⟩ := choice_nil_cases (g := g) hr hw
    have hposition : valueOf (position s) = .ok start := by
      have hlook := position_of_peek hp s.depth
      rw [← hd, show position (seen.atDepth seen.depth) = .ok start seen from hstart, hd] at hlook
      exact congrArg valueOf hlook
    rw [run_of_peek hp, ← hd]
    refine ⟨start, hposition, hcases.1, hcases.2, ?_⟩
    exact answers_of_givesUp hs hp (by rwa [run_of_peek hp])

/-- A run that ended without an error matched, or it failed. -/
theorem exists_of_isMatch {r : EStateM.Result Stop (Stream lexer) Outcome} {b : Bool}
    (h : (valueOf r).toOption.map Outcome.isMatch = some b) :
    ∃ o t, r = .ok o t ∧ o.isMatch = b := by
  cases r with
  | ok o t => exact ⟨o, t, rfl, Option.some.inj h⟩
  | error e t => cases h

theorem fails_of_isMatch {p : Segment}
    (h : (valueOf (p.run g w)).toOption.map Outcome.isMatch = some false) :
    ∃ o, p.Fails g w o := by
  obtain ⟨o, t, ht, hm⟩ := exists_of_isMatch h
  exact ⟨o, hm, t, ht⟩

/-- On a single word the rule for two words gives way to the word alone, and where no alternative
matches its failure is the one that counts, as it has read a word. -/
theorem choice_outcome_words :
    let s : Stream wordsAndBlanks := .ofString " a"
    let inside := s.atDepth (s.depth + 1)
    let word : Segment := .ofKind "word"
    ∃ found seen first second, s.Reachable " a" ∧ peek s = .ok found seen ∧
      Segment.Fails {} inside (.ofKind "mark") first ∧
      twoWords.toSegment.Fails {} inside second ∧ Decides (word.run {} inside) ∧
      valueOf ((Segment.choice [twoWords.toSegment, word]).run {} s) =
        valueOf (word.run {} inside) ∧
      (∃ o, FirstFurthest [first, second] o ∧
        valueOf ((Segment.choice [.ofKind "mark", twoWords.toSegment]).run {} s) = .ok o) ∧
      ∃ start, valueOf ((Segment.choice []).run {} s) = .ok (noAlternatives start seen.offset) := by
  intro s inside word
  obtain ⟨found, seen, hp⟩ : ∃ found seen, peek s = .ok found seen := ⟨_, _, rfl⟩
  obtain ⟨first, hfirst⟩ : ∃ o, Segment.Fails {} inside (.ofKind "mark") o :=
    fails_of_isMatch (by decide +kernel)
  obtain ⟨second, hsecond⟩ : ∃ o, twoWords.toSegment.Fails {} inside o :=
    fails_of_isMatch (by decide +kernel)
  have hword : Decides (word.run {} inside) := .inl (exists_of_isMatch (by decide +kernel))
  obtain ⟨hdecided, hfailed, start, -, hnone, -⟩ : _ ∧ _ ∧ _ :=
    choice_outcome (g := {}) (s := s) .start hp
  obtain ⟨o, ho, hfails, -⟩ :=
    hfailed [.ofKind "mark", twoWords.toSegment] [first, second] (by simp)
      (.cons hfirst (.cons hsecond .nil))
  exact ⟨found, seen, first, second, .start, hp, hfirst, hsecond, hword,
    (hdecided [twoWords.toSegment] word [] [second] (.cons hsecond .nil) hword).1, ⟨o, ho, hfails⟩,
    start, hnone (by decide)⟩

/-- A choice without alternatives does not fail everywhere: at the depth limit it ends too deep. -/
theorem choice_nil_tooDeep :
    (¬ ∀ (lexer : Lexer) (text : String) (g : Grammar) (s seen : Stream lexer)
        (found : Option Token), s.Reachable text → peek s = .ok found seen →
          ∃ o t, (Segment.choice []).run g s = .ok o t ∧ o.isMatch = false) ∧
      let s : Stream wordsAndBlanks := .ofString "a"
      (∃ found seen, peek s = .ok found seen) ∧
        valueOf ((Segment.choice []).run { maxDepth := 0 } s) =
          .error (.error (.tooDeep .start 0)) := by
  refine ⟨fun h => ?_, ⟨_, _, rfl⟩, rfl⟩
  obtain ⟨o, t, hrun, -⟩ :=
    h wordsAndBlanks "a" { maxDepth := 0 } (.ofString "a") _ _ .start rfl
  have hlimit : valueOf ((Segment.choice []).run { maxDepth := 0 }
      (.ofString "a" : Stream wordsAndBlanks)) = .error (.error (.tooDeep .start 0)) := rfl
  rw [hrun] at hlimit
  cases hlimit

end Descent
