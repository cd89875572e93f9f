import Descent.Proofs.Looking
import Descent.Proofs.Unfolding

/-!
# Choices inside choices

An alternative of a choice can be a choice itself. It settles what its alternatives have settled
already, so that a match goes through as it is and a failure keeps how far it came, and of several
failures the first that came furthest is the same in whatever groups they are compared. So brackets
around some of the alternatives change nothing, as long as the nesting does not go too deep.

* `Segment.Brackets`: alternatives in a row, with brackets around some of them.
* `further_further`, `choiceBody_append_of_ne_nil`: failures are compared group by group.
* `Concurs`: a run in brackets against the alternatives run in a row.
* `Segment.Brackets.concurs`: every run in brackets.
* `brackets_run`: the choice with brackets and the choice without.
-/
namespace Descent

open Descent.Stream

variable {lexer : Lexer} {text : String} {g : Grammar} {s t u v seen : Stream lexer}
  {found : Option Token} {o : Outcome} {p : Segment} {alternatives : List Segment}

/-- A choice without a key or a mode of its own, under any label. -/
def Segment.group (label : Option String) (alternatives : List Segment) : Segment where
  shape := .choice alternatives
  options := { label := label }

theorem Segment.choice_eq_group (alternatives : List Segment) :
    Segment.choice alternatives = .group (some "one of") alternatives := rfl

/-- The segment is the alternatives in a row, with brackets around some of them: it is the only one,
or a choice of parts of the row, which have brackets in turn. No part is empty. -/
inductive Segment.Brackets : Segment → List Segment → Prop
  | alone (p : Segment) : Brackets p [p]
  | group {parts : List (Segment × List Segment)} (label : Option String) (hne : parts ≠ [])
    (h : ∀ part ∈ parts, Brackets part.1 part.2) :
    Brackets (.group label (parts.map Prod.fst)) (parts.flatMap Prod.snd)

theorem Segment.Brackets.or {p q : Segment} {ps qs : List Segment} (hp : p.Brackets ps)
    (hq : q.Brackets qs) : (p.or q).Brackets (ps ++ qs) := by
  have h := @Brackets.group [(p, ps), (q, qs)] (some "one of") (by simp)
    (by simpa using And.intro hp hq)
  simpa [Segment.or, Segment.choice_eq_group] using h

/-- Without brackets. -/
theorem Segment.brackets_group (label : Option String) (hne : alternatives ≠ []) :
    (Segment.group label alternatives).Brackets alternatives := by
  have h : Brackets (.group label ((alternatives.map fun p => (p, [p])).map Prod.fst))
      ((alternatives.map fun p => (p, [p])).flatMap Prod.snd) := by
    refine .group label (by simpa using hne) fun part hpart => ?_
    obtain ⟨p, -, rfl⟩ := List.mem_map.1 hpart
    exact .alone p
  simpa [Function.comp_def, List.flatMap_map] using h

theorem Segment.Brackets.ne_nil (h : p.Brackets alternatives) : alternatives ≠ [] := by
  induction h with
  | alone p => exact List.cons_ne_nil _ _
  | @group parts _ hne _ ih =>
    obtain ⟨part, parts, rfl⟩ := List.exists_cons_of_ne_nil hne
    simpa using fun hnil => absurd hnil (ih part (by simp))

/-! ## Failures of groups -/

theorem further_further (best : Option Outcome) (b o : Outcome) :
    further (some (further best b)) o = further best (further (some b) o) := by
  cases best with
  | none => rfl
  | some a =>
    simp only [further]
    by_cases hab : a.progress < b.progress <;> by_cases hbo : b.progress < o.progress <;>
      simp only [hab, hbo, if_true, if_false]
    · rw [if_pos (Nat.lt_trans hab hbo)]
    · rw [if_neg fun h => hbo (Nat.lt_of_le_of_lt (Nat.le_of_not_lt hab) h)]

section

variable {run : Runner lexer}

theorem choiceBody_further {b : Outcome} (hb : b.isMatch = false) (best : Option Outcome)
    (xs ys : List Segment) :
    choiceBody run (some (further best b)) (xs ++ ys) =
      choiceBody run (some b) xs >>= fun o =>
        if o.isMatch then pure o else choiceBody run (some (further best o)) ys := by
  induction xs generalizing b with
  | nil => simp [choiceBody, hb]
  | cons x xs ih =>
    simp only [List.cons_append, choiceBody, bind_assoc]
    refine congrArg (run x >>= ·) (funext fun o => ?_)
    cases ho : o.isMatch with
    | true => simp [ho]
    | false =>
      have hm : (further (some b) o).isMatch = false :=
        isMatch_further (by rintro _ ⟨⟩; exact hb) ho
      simp only [Bool.false_eq_true, if_false, further_further]
      exact ih hm

/-- The first alternatives are a choice of their own, whose failure is compared with the rest. -/
theorem choiceBody_append_of_ne_nil {xs : List Segment} (hxs : xs ≠ []) (best : Option Outcome)
    (ys : List Segment) :
    choiceBody run best (xs ++ ys) = choiceBody run none xs >>= fun o =>
      if o.isMatch then pure o else choiceBody run (some (further best o)) ys := by
  obtain ⟨x, xs, rfl⟩ := List.exists_cons_of_ne_nil hxs
  simp only [List.cons_append, choiceBody, bind_assoc]
  refine congrArg (run x >>= ·) (funext fun o => ?_)
  cases ho : o.isMatch with
  | true => simp [ho]
  | false =>
    simp only [Bool.false_eq_true, if_false]
    exact choiceBody_further ho best xs ys

end

/-! ## Streams that come back -/

/-- The stream has come back to where `v` stands, at whatever depth. -/
structure Stream.BackAt (text : String) (v s : Stream lexer) : Prop where
  reachable : s.Reachable text
  looksLike : s.LooksLike (v.atDepth s.depth)

theorem Stream.BackAt.refl (hs : s.Reachable text) : BackAt text s s := ⟨hs, .refl s⟩

/-- A failure leads back. -/
theorem Stream.BackAt.of_fails (hs : BackAt text v s) (h : p.run g s = .ok o t)
    (hm : o.isMatch = false) : BackAt text v t := by
  have hd : t.depth = s.depth := by have := Segment.depth_run g p s; rwa [h] at this
  obtain ⟨found, seen, hp⟩ := peek_of_run h
  refine ⟨run_reachable hs.reachable h, ?_⟩
  rw [hd]
  exact (looksLike_of_givesUp hs.reachable hp (.inl ⟨o, h, hm⟩)).trans hs.looksLike

theorem Stream.BackAt.peek_eq (hs : BackAt text v s) (hv : peek v = .ok found seen) :
    ∃ u, peek s = .ok found u ∧ Same u (seen.atDepth s.depth) :=
  hs.looksLike.peek_eq (by rw [peek_atDepth, hv])

/-- A stream that has come back may still have to pass over skipped text. -/
theorem Stream.BackAt.offset_le (hs : BackAt text v s) (hv : peek v = .ok found seen) :
    s.offset ≤ seen.offset := by
  obtain ⟨u, hu, hsame⟩ := hs.peek_eq hv
  have hle := hs.reachable.offset_le_look
  rwa [hu, show (stateOf (.ok found u : EStateM.Result ReadError _ _)).offset = seen.offset from
    hsame.view.offset_eq] at hle

/-- A segment begins one level deeper. -/
theorem Stream.BackAt.of_begins (hs : BackAt text v s) (h : p.Begins g s u) :
    BackAt text v u := by
  refine ⟨h.reachable hs.reachable, ?_⟩
  rw [h.depth_le.1]
  exact h.looksLike.trans (hs.looksLike.atDepth _)

theorem Stream.BackAt.offset_of_begins (hs : BackAt text v s) (hv : peek v = .ok found seen)
    (h : p.Begins g s u) : u.offset = seen.offset := by
  obtain ⟨-, start, w, hposition, rfl⟩ := h
  obtain ⟨⟨found', hw⟩, -⟩ := position_cases (position_of_parse hposition)
  have hlook := (hs.looksLike.atDepth (s.depth + 1)).left
  rw [hw, show (v.atDepth s.depth).atDepth (s.depth + 1) = v.atDepth (s.depth + 1) from rfl,
    peek_atDepth, hv] at hlook
  exact hlook.view.offset_eq

/-- A look at the first token shows streams that have come back the same. -/
theorem Stream.BackAt.meets_position {P : Stop → Prop} (hs : BackAt text v s)
    (ht : BackAt text v t) (d d' : Nat) :
    Meets (Alike text) P (Parse.position (s.atDepth d)) (Parse.position (t.atDepth d')) := by
  have hlooks : (s.atDepth d).LooksLike (t.atDepth d) :=
    (hs.looksLike.atDepth d).trans (ht.looksLike.atDepth d).symm
  obtain ⟨hvalue, hsame⟩ := hlooks.position
  have hstate : Alike text (stateOf (position (s.atDepth d))) (stateOf (position (t.atDepth d))) :=
    ⟨hsame.view, (hs.reachable.nest d).position, (ht.reachable.nest d).position⟩
  have hself : Alike text (t.atDepth d) (t.atDepth d) := .refl (ht.reachable.nest d)
  obtain ⟨hvalue', halike⟩ := pullMirrors_position _ _ (hself.nest_right d')
  exact .ofPull ⟨hvalue.trans hvalue', hstate.trans halike⟩

/-! ## Runs in brackets -/

/-- A run in brackets comes to the same as the alternatives in a row that were tried from `v` on, at
the depth `d`, or it ends too deep. A match leaves the same, a failure leads back. -/
inductive Concurs (text : String) (v : Stream lexer) (d : Nat) :
    EStateM.Result Stop (Stream lexer) Outcome → EStateM.Result Stop (Stream lexer) Outcome → Prop
  | matched {o : Outcome} {s t : Stream lexer} (hm : o.isMatch = true) (h : Alike text s t) :
    Concurs text v d (.ok o s) (.ok o t)
  | failed {o : Outcome} {s t : Stream lexer} (hm : o.isMatch = false) (hs : BackAt text v s)
    (ht : BackAt text v t) (hd : t.depth = d) : Concurs text v d (.ok o s) (.ok o t)
  | error (e : Stop) (s t : Stream lexer) : Concurs text v d (.error e s) (.error e t)
  | tooDeep {e : Stop} {s : Stream lexer} (r : EStateM.Result Stop (Stream lexer) Outcome)
    (h : e.TooDeep) : Concurs text v d (.error e s) r

/-- An alternative on its own, run at two depths. -/
theorem meets_run_of_depth_le (hg : g.Scriptless) (hp : p.Scriptless) (hs : BackAt text v s)
    (ht : BackAt text v t) (hle : t.depth ≤ s.depth) :
    Meets (Alike text) Stop.TooDeep (p.run g s) (p.run g t) := by
  have hposition : Meets (Alike text) Stop.TooDeep (Parse.position (s.atDepth (s.depth + 1)))
      (Parse.position (t.atDepth (t.depth + 1))) := hs.meets_position ht _ _
  have hlevels : g.maxDepth - s.depth ≤ g.maxDepth - t.depth := Nat.sub_le_sub_left hle _
  unfold Segment.run
  generalize g.maxDepth - s.depth = levels at hlevels
  generalize g.maxDepth - t.depth = levels' at hlevels
  cases levels with
  | zero =>
    cases levels' <;>
      exact meets_deeper (hposition.bind fun start _ _ _ _ _ => .stopped _ ⟨start, _, rfl⟩)
  | succ levels =>
    obtain ⟨levels', rfl⟩ : ∃ n, levels' = n + 1 := ⟨levels' - 1, by omega⟩
    have hshape : p.shape.Like (fun _ => False) (Segment.Unfolds g) p.shape :=
      Shape.like_refl hp.shape fun q hq => Segment.Scriptless.unfolds (hp.part hq)
    exact meets_deeper (meets_attempt _ (mirrors_body
      (fun p q h => mirrors_unfolds hg.unfolds (by omega) h) (fun _ _ _ h _ => h.elim)
      hg.unfolds.find?_toSegment hshape) hposition)

theorem concurs_run (hg : g.Scriptless) (hp : p.Scriptless) (hs : BackAt text v s)
    (ht : BackAt text v t) (hle : t.depth ≤ s.depth) :
    Concurs text v t.depth (p.run g s) (p.run g t) := by
  have hmeets := meets_run_of_depth_le hg hp hs ht hle
  have hd := Segment.depth_run g p t
  cases hrs : p.run g s <;> cases hrt : p.run g t <;> rw [hrs, hrt] at hmeets
  all_goals cases hmeets
  · next o s' t' h =>
    rw [hrt] at hd
    cases hm : o.isMatch with
    | true => exact .matched hm h
    | false => exact .failed hm (hs.of_fails hrs hm) (ht.of_fails hrt hm) hd
  · next h => exact .tooDeep _ h
  · exact .error _ _ _
  · next h => exact .tooDeep _ h

/-- One group after the other, if each of them on its own concurs. -/
theorem concurs_parts {parts : List (Segment × List Segment)}
    (hparts : ∀ part ∈ parts, part.2 ≠ [] ∧ ∀ s t, BackAt text v s → BackAt text v t →
      t.depth ≤ s.depth → Concurs text v t.depth (part.1.run g s)
        (choiceBody (Segment.run g) none part.2 t))
    {best : Option Outcome} (hbest : ∀ b, best = some b → b.isMatch = false)
    (hne : best = none → parts ≠ []) (hs : BackAt text v s) (ht : BackAt text v t)
    (hle : t.depth ≤ s.depth) :
    Concurs text v t.depth (choiceBody (Segment.run g) best (parts.map Prod.fst) s)
      (choiceBody (Segment.run g) best (parts.flatMap Prod.snd) t) := by
  induction parts generalizing best s t with
  | nil =>
    cases best with
    | none => exact absurd rfl (hne rfl)
    | some b => exact .failed (hbest b rfl) hs ht rfl
  | cons part parts ih =>
    obtain ⟨⟨hfirst, hconcurs⟩, hrest⟩ := List.forall_mem_cons.1 hparts
    have hpart := hconcurs s t hs ht hle
    have hd := Segment.depth_run g part.1 s
    rw [List.map_cons, List.flatMap_cons, choiceBody_append_of_ne_nil hfirst, choiceBody,
      bind_apply, bind_apply]
    generalize part.1.run g s = r at hpart hd
    generalize choiceBody (Segment.run g) none part.2 t = r' at hpart
    cases hpart with
    | matched hm h =>
      simp only [hm, if_true]
      exact .matched hm h
    | @failed o s' t' hm hs' ht' hdt =>
      simp only [hm, Bool.false_eq_true, if_false]
      rw [← hdt]
      refine ih hrest (fun b hb => ?_) (fun h => by cases h) hs' ht' ?_
      · cases hb
        exact isMatch_further hbest hm
      · rw [hdt, show s'.depth = s.depth from hd]
        exact hle
    | error e s' t' => exact .error e s' t'
    | tooDeep r h => exact .tooDeep _ h

/-- The outcome of a choice is that of one of its alternatives, from where they all begin. -/
theorem choiceBody_ok {best : Option Outcome} {qs : List Segment} (hs : s.Reachable text)
    (hsu : s.LooksLike u) (h : choiceBody (Segment.run g) best qs s = .ok o t)
    (hne : best = none → qs ≠ []) :
    best = some o ∨ ∃ (q : Segment) (t' : Stream lexer), q.run g u = .ok o t' ∧
      (o.isMatch = true → Same t' t) := by
  induction qs generalizing best s with
  | nil =>
    cases best with
    | none => exact absurd rfl (hne rfl)
    | some b => cases h; exact .inl rfl
  | cons q qs ih =>
    rw [choiceBody] at h
    obtain ⟨o₁, s₁, hrun, hrest⟩ := ok_of_bind h
    obtain ⟨u₁, hu₁, hsame⟩ := run_ok_of_looksLike hrun hsu.symm
    cases hm : o₁.isMatch with
    | true =>
      simp only [hm, if_true] at hrest
      cases hrest
      exact .inr ⟨q, u₁, hu₁, fun _ => hsame⟩
    | false =>
      simp only [hm, Bool.false_eq_true, if_false] at hrest
      obtain ⟨found, seen, hp⟩ := peek_of_run hrun
      have hback : s₁.LooksLike s := looksLike_of_givesUp hs hp (.inl ⟨o₁, hrun, hm⟩)
      rcases ih (run_reachable hs hrun) (hback.trans hsu) hrest (fun h => by cases h) with
        hfurther | hone
      · -- What is left of two failures is one of them.
        have hor : best = some o ∨ o₁ = o := by
          cases best with
          | none => exact .inr (Option.some.inj hfurther)
          | some b =>
            simp only [further] at hfurther
            split at hfurther
            · exact .inr (Option.some.inj hfurther)
            · exact .inl hfurther
        rcases hor with hbest | rfl
        · exact .inl hbest
        · exact .inr ⟨q, u₁, hu₁, fun hm' => by rw [hm] at hm'; cases hm'⟩
      · exact .inr hone

theorem Outcome.settleFailure_eq {f : Failure} (hf : o.verdict = .failed f) {began came : Nat}
    (hle : came ≤ f.reached) (hp : o.progress = f.reached - began) :
    o.settleFailure f began came = o := by
  obtain ⟨verdict, key, nesting, progress⟩ := o
  simp only at hf hp
  subst hf hp
  simp only [settleFailure, Nat.max_eq_left hle]

/-- What the alternatives have settled stays as it is in a choice around them. -/
theorem settled_of_choiceBody {start : Position} (hr : u.Reachable text)
    (hstart : ∀ d, position (u.atDepth d) = .ok start (u.atDepth d)) (hne : alternatives ≠ [])
    (hs : s.Reachable text) (hsu : s.LooksLike u)
    (h : choiceBody (Segment.run g) none alternatives s = .ok o t) :
    (o.isMatch = true → ∀ label, o.settleMatch o.data? { label := label }
      ⟨start, start.latest t.lastEnd⟩ u.offset t.offset = o) ∧
    ∀ f, o.verdict = .failed f → u.offset ≤ f.reached ∧ o.progress = f.reached - u.offset := by
  rcases choiceBody_ok hs hsu h (fun _ => hne) with hnone | ⟨q, t', hrun, hsame⟩
  · cases hnone
  · obtain ⟨hmatch, hfailure⟩ := settled_of_run hr hstart hrun
    refine ⟨fun hm label => ?_, hfailure⟩
    have hend := hsame hm
    rw [← hend.lastEnd, ← hend.view.offset_eq]
    exact hmatch hm label

/-- So the outcome of the alternatives is the outcome of the choice. -/
theorem run_group_of_ok (hs : s.Reachable text) {label : Option String} (hne : alternatives ≠ [])
    (hbegins : (Segment.group label alternatives).Begins g s u)
    (hb : choiceBody (Segment.run g) none alternatives u = .ok o t) :
    (o.isMatch = true → (Segment.group label alternatives).run g s = .ok o (t.atDepth s.depth)) ∧
    (o.isMatch = false → t.offset ≤ u.offset →
      ∃ t', (Segment.group label alternatives).run g s = .ok o t') := by
  obtain ⟨start, w, hposition, rfl, hw, hstart⟩ := hbegins.exists_start hs
  obtain ⟨hmatch, hfailure⟩ := settled_of_choiceBody hw hstart hne (hbegins.reachable hs)
    (.record w _) hb
  refine ⟨fun hm => ?_, fun hm hle => ?_⟩
  · have hrun : (Segment.group label alternatives).run g s = .ok (o.settleMatch o.data?
        { label := label } ⟨start, start.latest t.lastEnd⟩ w.offset t.offset)
        (t.atDepth s.depth) := run_match_of_position hbegins.1 hposition hb hm
    rw [hrun, hmatch hm]
  · obtain ⟨f, t', hf, hrun⟩ := run_failure_of_begins hbegins hb hm
    obtain ⟨hreached, hprogress⟩ := hfailure f hf
    have hsame : o.settleFailure f w.offset t.offset = o :=
      Outcome.settleFailure_eq hf (Nat.le_trans hle hreached) hprogress
    exact ⟨t', hrun.trans (congrArg (EStateM.Result.ok · t') hsame)⟩

/-- A choice around alternatives comes to the same as the alternatives. -/
theorem concurs_group (hv : peek v = .ok found seen) (hs : BackAt text v s)
    {label : Option String} (hne : alternatives ≠ []) {d : Nat}
    {r : EStateM.Result Stop (Stream lexer) Outcome}
    (h : ∀ u, BackAt text v u → u.depth = s.depth + 1 →
      Concurs text v d (choiceBody (Segment.run g) none alternatives u) r) :
    Concurs text v d ((Segment.group label alternatives).run g s) r := by
  obtain ⟨seen', hpeek, -⟩ := hs.peek_eq hv
  rcases Nat.lt_or_ge s.depth g.maxDepth with hlt | hlimit
  · obtain ⟨u, hbegins⟩ := exists_begins hlt hpeek (.group label alternatives)
    have hu : BackAt text v u := hs.of_begins hbegins
    have hbody := h u hu hbegins.depth_le.1
    have hsettled {o : Outcome} {t : Stream lexer} :=
      run_group_of_ok (o := o) (t := t) hs.reachable hne hbegins
    generalize hb : choiceBody (Segment.run g) none alternatives u = inner at hbody
    cases hbody with
    | @matched o behind t hm halike =>
      rw [(hsettled hb).1 hm]
      exact .matched hm (halike.symm.nest_right _).symm
    | @failed o behind t hm hbehind ht hd =>
      have hle : behind.offset ≤ u.offset := by
        rw [hs.offset_of_begins hv hbegins]
        exact hbehind.offset_le hv
      obtain ⟨t', hrun⟩ := (hsettled hb).2 hm hle
      rw [hrun]
      exact .failed hm (hs.of_fails hrun hm) ht hd
    | error e behind t =>
      obtain ⟨t', he⟩ := run_error_of_begins hbegins hb
      rw [he]
      exact .error e t' t
    | tooDeep r hdeep =>
      obtain ⟨t', he⟩ := run_error_of_begins hbegins hb
      rw [he]
      exact .tooDeep r hdeep
  · obtain ⟨e, t, he, hdeep⟩ := endsTooDeep_of_limit_le hpeek hlimit (.group label alternatives)
    rw [he]
    exact .tooDeep r hdeep

/-- Brackets around alternatives that are tried where `v` stands. -/
theorem Segment.Brackets.concurs (hg : g.Scriptless) (hv : peek v = .ok found seen)
    (h : p.Brackets alternatives) (hplain : ∀ q ∈ alternatives, q.Scriptless)
    (hs : BackAt text v s) (ht : BackAt text v t) (hle : t.depth ≤ s.depth) :
    Concurs text v t.depth (p.run g s) (choiceBody (Segment.run g) none alternatives t) := by
  induction h generalizing s t with
  | alone p =>
    have hone : choiceBody (Segment.run g) none [p] = (p.run g : Parse lexer Outcome) := by
      simp [choiceBody, further]
    rw [hone]
    exact concurs_run hg (hplain p (List.mem_singleton.2 rfl)) hs ht hle
  | @group parts label hne hparts ih =>
    refine concurs_group hv hs (by simpa using hne) fun u hu hdepth => ?_
    refine concurs_parts (fun part hpart => ⟨(hparts part hpart).ne_nil, fun s t hs ht hle => ?_⟩)
      (fun b hb => by cases hb) (fun _ => hne) hu ht (by omega)
    exact ih part hpart (fun q hq => hplain q (List.mem_flatMap.2 ⟨part, hpart, hq⟩)) hs ht hle

/-! ## The same results -/

/-- What is not settled as a match is put back, even where the body does not end. -/
theorem same_of_settled {options : Options} {start : Position} {body : Parse lexer Outcome}
    (h : ∀ o t, settled options start body s = .ok o t → o.isMatch = false) :
    Same (stateOf (settled options start body s)) ((stateOf (body s)).returnTo s.checkpoint) := by
  cases hb : body s with
  | error e t =>
    rw [settled, hb]
    exact .refl _
  | ok o t =>
    cases hm : o.isMatch with
    | true =>
      have hnot := h _ _ (settled_of_match hb hm)
      cases hnot
    | false =>
      obtain ⟨f, e, -, hset⟩ : ∃ f e, _ ∧ settled options start body s = _ :=
        settled_of_failure hb hm
      rw [hset]
      exact ⟨rfl, rfl, rfl, rfl⟩

/-- A return leads to the same place from wherever in the text. -/
theorem same_returnTo (hs : s.Reachable text) (ht : t.Reachable text) (c : Checkpoint)
    (hd : s.depth = t.depth) : Same (s.returnTo c) (t.returnTo c) := by
  obtain ⟨k, hk⟩ := hs.standsAt_place
  obtain ⟨j, hj⟩ := ht.standsAt_place
  have htext : s.cursor.text = t.cursor.text := by
    rw [hk.text_eq, hj.text_eq, lexer.text_place, lexer.text_place]
  refine ⟨?_, rfl, rfl, hd⟩
  rw [returnTo, returnTo, Cursor.goTo, Cursor.goTo, htext]

/-- A run without a match puts the stream back, to where the look at its first token led. -/
theorem same_of_not_match (hs : s.Reachable text) (hp : peek s = .ok found seen)
    (hlt : s.depth < g.maxDepth) (p : Segment)
    (hm : ∀ o t, p.run g s = .ok o t → o.isMatch = false) :
    Same (stateOf (p.run g s)) (seen.returnTo seen.checkpoint) := by
  obtain ⟨start, hstart⟩ := position_of_looked (peek_again hp)
  have hposition : position (s.atDepth (s.depth + 1)) = .ok start (seen.atDepth (s.depth + 1)) :=
    (position_of_peek hp _).trans (hstart _)
  have hseen : seen.Reachable text := by have := hs.look; rwa [hp] at this
  let w := p.opened start (seen.atDepth (s.depth + 1))
  let body : Parse lexer Outcome := p.shape.body g (Segment.run g)
  have hw : w.Reachable text := .note (hseen.nest _) _
  have hd : (stateOf (p.run g s)).depth = seen.depth := by
    have := (peek_frame s).2
    rw [hp] at this
    exact (Segment.depth_run g p s).trans this.symm
  have hrun : p.run g s = risen (settled p.options start body w) :=
    run_of_position hlt hposition p
  have hundone : Same (stateOf (settled p.options start body w))
      ((stateOf (body w)).returnTo w.checkpoint) :=
    same_of_settled fun o t hset => by rw [hset] at hrun; exact hm _ _ hrun
  have hkept : (stateOf (body w)).Reachable text :=
    (keeps_body (fun q => Segment.keeps_run g q) g p.shape w hw).1
  have hback : Same ((stateOf (body w)).returnTo w.checkpoint)
      ((seen.atDepth (stateOf (body w)).depth).returnTo w.checkpoint) :=
    same_returnTo hkept (hseen.nest _) _ rfl
  have hstate : (stateOf (p.run g s)).SameView (stateOf (settled p.options start body w)) := by
    rw [hrun]
    exact sameView_risen _
  have hview : (stateOf (p.run g s)).SameView (seen.returnTo seen.checkpoint) :=
    ⟨hstate.cursor.trans (hundone.cursor.trans hback.cursor),
      hstate.buffered.trans (hundone.buffered.trans hback.buffered),
      hstate.lastEnd.trans (hundone.lastEnd.trans hback.lastEnd)⟩
  exact hview.same hd

/-- Alternatives with brackets around some of them give the same result as one choice of all of
them, and leave the same stream, as long as neither of the two nests too deep. -/
theorem brackets_run (hg : g.Scriptless) (hs : s.Reachable text) (h : p.Brackets alternatives)
    (hplain : ∀ q ∈ alternatives, q.Scriptless) (hd : ¬ EndsTooDeep (p.run g s))
    (hd' : ¬ EndsTooDeep ((Segment.choice alternatives).run g s)) :
    SameResult (p.run g s) ((Segment.choice alternatives).run g s) := by
  cases hp : peek s with
  | error e seen =>
    rw [run_of_look_error hp, run_of_look_error hp]
    exact ⟨rfl, .refl _⟩
  | ok found seen =>
    have hlt : s.depth < g.maxDepth :=
      Nat.lt_of_not_le fun hle => hd (endsTooDeep_of_limit_le hp hle p)
    have hself : BackAt text s s := .refl hs
    have hbracketed := h.concurs hg hp hplain hself hself (Nat.le_refl _)
    have hflat : Concurs text s s.depth ((Segment.choice alternatives).run g s) _ :=
      (Segment.brackets_group (some "one of") h.ne_nil).concurs hg hp hplain hself hself
        (Nat.le_refl _)
    have hundone (hm : ∀ o t, p.run g s = .ok o t → o.isMatch = false)
        (hm' : ∀ o t, (Segment.choice alternatives).run g s = .ok o t → o.isMatch = false) :
        Same (stateOf (p.run g s)) (stateOf ((Segment.choice alternatives).run g s)) :=
      (same_of_not_match hs hp hlt p hm).trans (same_of_not_match hs hp hlt _ hm').symm
    have hdepth : (stateOf (p.run g s)).depth =
        (stateOf ((Segment.choice alternatives).run g s)).depth := by
      rw [Segment.depth_run, Segment.depth_run]
    generalize p.run g s = x at hbracketed hundone hdepth hd
    generalize (Segment.choice alternatives).run g s = y at hflat hundone hdepth hd'
    generalize choiceBody (Segment.run g) none alternatives s = r at hbracketed hflat
    cases hbracketed with
    | matched hm halike =>
      cases hflat with
      | matched _ halike' => exact ⟨rfl, (halike.trans halike'.symm).view.same hdepth⟩
      | failed hm' => rw [hm] at hm'; cases hm'
      | tooDeep _ hdeep => exact absurd ⟨_, _, rfl, hdeep⟩ hd'
    | failed hm =>
      cases hflat with
      | matched hm' => rw [hm] at hm'; cases hm'
      | failed =>
        exact ⟨rfl, hundone (by rintro _ _ ⟨⟩; exact hm) (by rintro _ _ ⟨⟩; exact hm)⟩
      | tooDeep _ hdeep => exact absurd ⟨_, _, rfl, hdeep⟩ hd'
    | error e =>
      cases hflat with
      | error => exact ⟨rfl, hundone nofun nofun⟩
      | tooDeep _ hdeep => exact absurd ⟨_, _, rfl, hdeep⟩ hd'
    | tooDeep _ hdeep => exact absurd ⟨_, _, rfl, hdeep⟩ hd

/-- A mark, or two words, or a word, with a label on the brackets around the last two: on a single
word the last alternative is taken, and before the end of the text they all fail. -/
theorem brackets_run_words :
    let word : Segment := .ofKind "word"
    let mark : Segment := .ofKind "mark"
    let grouped := mark.or ((twoWords.toSegment.or word).labelled "words")
    let alternatives := [mark, twoWords.toSegment, word]
    Grammar.Scriptless {} ∧ grouped.Brackets alternatives ∧ (∀ q ∈ alternatives, q.Scriptless) ∧
      ∀ text ∈ [" a", ""], let s : Stream wordsAndBlanks := .ofString text
        s.Reachable text ∧ ¬ EndsTooDeep (grouped.run {} s) ∧
        ¬ EndsTooDeep ((Segment.choice alternatives).run {} s) ∧
        SameResult (grouped.run {} s) ((Segment.choice alternatives).run {} s) := by
  intro word mark grouped alternatives
  have hword : word.Scriptless := Segment.throughout_of_parts_eq_nil rfl trivial
  have hmark : mark.Scriptless := Segment.throughout_of_parts_eq_nil rfl trivial
  have htwo : twoWords.toSegment.Scriptless :=
    Rule.scriptless_toSegment (by simpa [twoWords] using hword)
  have hplain : ∀ q ∈ alternatives, q.Scriptless := by
    simp only [alternatives, List.forall_mem_cons]
    exact ⟨hmark, htwo, hword, by simp⟩
  have hwords : ((twoWords.toSegment.or word).labelled "words").Brackets
      [twoWords.toSegment, word] := Segment.brackets_group (some "words") (by simp)
  have hbrackets : grouped.Brackets alternatives := .or (.alone mark) hwords
  have hempty : Grammar.Scriptless {} := Grammar.throughout_empty _
  have hdeep : ∀ text ∈ [" a", ""], let s : Stream wordsAndBlanks := .ofString text
      ¬ EndsTooDeep (grouped.run {} s) ∧
        ¬ EndsTooDeep ((Segment.choice alternatives).run {} s) := by
    decide +kernel
  exact ⟨hempty, hbrackets, hplain, fun text htext => ⟨.start, (hdeep text htext).1,
    (hdeep text htext).2, brackets_run hempty .start hbrackets hplain (hdeep text htext).1
      (hdeep text htext).2⟩⟩

end Descent
