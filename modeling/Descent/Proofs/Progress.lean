import Descent.Proofs.Accounts

/-!
# How far a failed run came

A run accounts for itself: its log knows where the stream has been, and a failure is settled where
it leaves the stream. This follows for a segment if it holds for the segments that its body runs,
since the plan of the body is honest: it passes on only failures that were settled where the stream
still stands, and its own failure is that of the shape at the place where the stream stands then.

* `Told.back`: a return, and what it drops.
* `Plan.accounts`: honest plans, by induction on the plan, for runs that account for themselves.
* `reported_match`, `reported_failure`: what the end of a run makes of its body.
* `reported_runWithin`: every run of a segment accounts for itself, by induction on the levels.
-/
namespace Descent

open Descent.Stream

variable {lexer : Lexer} {text : String} {allowed : Script → Prop}
  {s s₁ s' t : Stream lexer} {l₀ l l₁ : List (Sight lexer)} {o : Outcome} {own : Bool}

/-! ## Plans -/

/-- What can be said behind a plan, or a part of one that began with the log `l₀` behind it. A
failure has something to blame at the offset that the segment around it will report. What the plan
does not fail by itself is settled already. -/
structure Accounted (text : String) (allowed : Script → Prop) (own : Bool)
    (l₀ : List (Sight lexer)) (s s' : Stream lexer) (l : List (Sight lexer)) (o : Outcome) :
    Prop where
  told : Told text allowed s s' l
  le : s.offset ≤ s'.offset
  blamed : ∀ f, o.verdict = .failed f → Blamed (l₀ ++ l) f (max f.reached s'.offset)
  settled : own = false → Settled s' (l₀ ++ l) o

theorem Accounted.prepend (h : Accounted text allowed own (l₀ ++ l₁) s₁ s' l o)
    (h₁ : Told text allowed s s₁ l₁) (hle : s.offset ≤ s₁.offset) :
    Accounted text allowed own l₀ s s' (l₁ ++ l) o where
  told := h₁.trans h.told
  le := Nat.le_trans hle h.le
  blamed := by
    rw [← List.append_assoc]
    exact h.blamed
  settled := by
    rw [← List.append_assoc]
    exact h.settled

/-- A shape that fails by itself has something to blame. -/
theorem accounted_own (h : Told text allowed s s' l) (hle : s.offset ≤ s'.offset)
    (hfail : ∀ f, o.verdict = .failed f → Blamed l f (max f.reached s'.offset)) :
    Accounted text allowed true l₀ s s' l o where
  told := h
  le := hle
  blamed f hf := (hfail f hf).mono (List.subset_append_right _ _)
  settled := nofun

variable {g : Grammar} {run : Runner lexer}
  {watch : Segment → Stream lexer → List (Sight lexer)} {known : Segment → Prop}
  {failures : Outcome → Prop}

/-- Going back drops what had been read, up to where the stream once stood. -/
theorem Told.back (h : Told text allowed s t l) (hs' : s'.Reachable text)
    (hle : s.offset ≤ s'.offset) {r : Nat} (hr : t.offset ≤ r)
    (hstood : ∃ u, .stood u ∈ l ∧ u.offset = r) :
    Told text allowed s s' (l ++ [.stood s', .dropped r]) where
  reachable := hs'
  start := Or.inl hle
  covered u hu := by
    rcases List.mem_append.1 hu with hu | hu
    · refine Or.inr ?_
      rcases h.covered u hu with hle' | ⟨r', hr', hle'⟩
      · exact ⟨r, by simp, Nat.le_trans hle' hr⟩
      · exact ⟨r', List.mem_append_left _ hr', hle'⟩
    · obtain rfl : u = s' := by simpa using hu
      exact Or.inl (Nat.le_refl _)
  dropped r' hr' := by
    rcases List.mem_append.1 hr' with hr' | hr'
    · obtain ⟨u, hu, hur⟩ := h.dropped r' hr'
      exact ⟨u, List.mem_append_left _ hu, hur⟩
    · obtain rfl : r' = r := by simpa using hr'
      obtain ⟨u, hu, hur⟩ := hstood
      exact ⟨u, List.mem_append_left _ hu, hur⟩
  missed origin u f hm := List.mem_append_left _ (h.missed origin u f (by simpa using hm))
  genuine x hx := by
    rcases List.mem_append.1 hx with hx | hx
    · exact h.genuine x hx
    · simp only [List.mem_cons, List.not_mem_nil, or_false] at hx
      rcases hx with rfl | rfl
      · exact hs'
      · trivial

/-- A token is put back if what stands to its right does not match. -/
theorem Accounted.putBack {seen : Stream lexer} (h : Accounted text allowed false [] seen t l o)
    (hm : o.isMatch = false) (hs : s.Reachable text)
    (hseen : Told text allowed s seen [.stood seen]) (hle : s.offset ≤ seen.offset) :
    Accounted text allowed own l₀ s (t.returnTo s.checkpoint)
      ([.stood seen] ++ l ++ settledIn (.ok o (t.returnTo s.checkpoint))) o := by
  obtain ⟨verdict, key, nesting, progress⟩ := o
  cases verdict with
  | matched data => cases hm
  | failed f =>
    obtain ⟨hreached, hdropped, hblamed⟩ := h.settled rfl f rfl
    have hahead : s.offset ≤ f.reached := Nat.le_trans (Nat.le_trans hle h.le) hreached
    have htold := hseen.trans h.told
    have hlist : l ⊆ l₀ ++ ([.stood seen] ++ l ++
        settledIn (.ok ⟨.failed f, key, nesting, progress⟩ (t.returnTo s.checkpoint))) :=
      fun x hx => by simp [hx]
    refine ⟨htold.back (.back h.told.reachable hs) (Nat.le_refl _) hreached
      (htold.dropped _ (List.mem_append_right _ hdropped)), Nat.le_refl _, ?_, ?_⟩
    · rintro f ⟨⟩
      rw [show (t.returnTo s.checkpoint).offset = s.offset from rfl, Nat.max_eq_left hahead]
      exact hblamed.mono hlist
    · rintro - f ⟨⟩
      exact ⟨hahead, hlist hdropped, hblamed.mono hlist⟩

/-- What may be passed on may be passed on behind a look. -/
theorem settled_look {found : Option Token} (hp : peek s = .ok found s₁)
    (h : ∀ o, failures o → Settled s l₀ o ∧ Rested s) (o : Outcome) (ho : failures o) :
    Settled s₁ (l₀ ++ [.stood s₁]) o ∧ Rested s₁ := by
  obtain ⟨hset, hrest⟩ := h o ho
  have hsame : s₁.offset = s.offset := by
    unfold Rested at hrest
    rwa [hp] at hrest
  exact ⟨(hset.congr hsame).mono (List.subset_append_left _ _), rested_of_peek hp⟩

/-- What may be passed on behind a run. -/
theorem settled_joined (hrun : Reported text allowed s s₁ l₁ o)
    (h : ∀ o, failures o → Settled s l₀ o ∧ Rested s) (o' : Outcome)
    (ho' : Plan.joined failures o o') :
    Settled s₁ (l₀ ++ l₁) o' ∧ Rested s₁ := by
  obtain ⟨hfail, ho'⟩ := ho'
  obtain ⟨hseen, hrested⟩ := hrun.undone hfail
  refine ⟨?_, hrested⟩
  rcases ho' with ho' | rfl
  · obtain ⟨hset, hrest⟩ := h o' ho'
    exact (hset.congr (hseen.trans hrest)).mono (List.subset_append_left _ _)
  · exact hrun.settled.mono (List.subset_append_right _ _)

/-- An honest plan accounts for what it does, if the runs that it makes do. -/
theorem Plan.accounts (hplain : ∀ request, allowed request → request.Plain)
    (hrun : ∀ p, known p → Recounts text allowed (run p) (watch p))
    {x : Plan lexer} (hx : x.Honest known allowed own failures) (hs : s.Reachable text)
    (hfailures : ∀ o, failures o → Settled s l₀ o ∧ Rested s) (h : x.go g run s = .ok o s') :
    Accounted text allowed own l₀ s s' (x.sights g run watch s) o := by
  -- The failures that may be passed on stay settled where the stream stands: a look moves nothing
  -- any more, a run without a match returns, and behind a match or a token there are none.
  induction x generalizing own failures s l₀ o s' with
  | done o =>
    cases h
    refine ⟨told_nil hs, Nat.le_refl _, fun f hf => ?_, fun _ f hf => ?_⟩
    all_goals
      have hmatch : o.isMatch = false := by simp [Outcome.isMatch, hf]
      obtain ⟨hle, hd, hb⟩ := (hfailures o (hx.resolve_left (by simp [hmatch]))).1 f hf
    · rw [Nat.max_eq_left hle]
      exact hb.mono (List.subset_append_left _ _)
    · exact ⟨hle, List.mem_append_left _ hd, hb.mono (List.subset_append_left _ _)⟩
  | single shape =>
    have h : shape.body g run s = .ok o s' := h
    obtain ⟨htold, hle, hfail⟩ := told_single hs (singleEnd_body hx.2 h)
    rw [Plan.sights, h, hx.1]
    refine accounted_own htold hle fun f hf => ?_
    obtain ⟨hzero, hb⟩ := hfail f hf
    rw [hzero, Nat.zero_max]
    exact hb.mono (List.subset_cons_self _ _)
  | script request parts =>
    have h : request.run g.maxDepth (parts.map run) [] s = .ok o s' := h
    have hparts : List.Forall₂ (Recounts text allowed) (parts.map run) (parts.map watch) := by
      rw [List.forall₂_map_left_iff, List.forall₂_map_right_iff]
      exact List.forall₂_same.2 fun p hp => hrun p (hx.2.2 p hp)
    obtain ⟨htold, hle, hfail⟩ := told_script hparts hx.2.1 (hplain _ hx.2.1) hs h
    rw [Plan.sights, h, hx.1]
    exact accounted_own htold hle hfail
  | stop e => cases h
  | complain o =>
    rw [Plan.go, bind_apply] at h
    split at h <;> cases h
  | peek answer ih =>
    obtain ⟨found, s₁, hp, h⟩ := ok_of_bind h
    rw [Plan.sights, hp]
    have hpeek := peek_of_parse hp
    have htold : Told text allowed s s₁ [.stood s₁] := told_peek hs hpeek
    have hin := ih found (hx found) htold.reachable (settled_look hpeek hfailures) h
    exact hin.prepend htold (hs.offset_le_of_peek hpeek)
  | position answer ih =>
    obtain ⟨p, s₁, hp, h⟩ := ok_of_bind h
    rw [Plan.sights, hp]
    obtain ⟨⟨found, hpeek⟩, -⟩ := position_cases (position_of_parse hp)
    have htold : Told text allowed s s₁ [.stood s₁] := told_peek hs hpeek
    have hin := ih p (hx p) htold.reachable (settled_look hpeek hfailures) h
    exact hin.prepend htold (hs.offset_le_of_peek hpeek)
  | observe answer ih => exact ih s (hx s) hs hfailures h
  | call p answer ih =>
    obtain ⟨o₁, s₁, hp, h⟩ := ok_of_bind h
    rw [Plan.sights, hp]
    have hrep := hrun p hx.1 s s₁ o₁ hs hp
    have hin := ih o₁ (hx.2 o₁) hrep.told.reachable (settled_joined hrep hfailures) h
    exact hin.prepend hrep.told hrep.le
  | taking missing right answer ihm ihr iha =>
    rw [Plan.go_taking] at h
    obtain ⟨before, _, hbefore, h⟩ := ok_of_bind h
    cases hbefore
    obtain ⟨found, seen, hn, h⟩ := ok_of_bind h
    rw [Plan.sights, hn]
    have hnext := next_of_parse hn
    have hseen : Told text allowed s seen [.stood seen] := told_next hs hnext
    have hle := hs.offset_le_of_next hnext
    cases found with
    | none => exact (ihm hx.1 hseen.reachable (fun _ => False.elim) h).prepend hseen hle
    | some token =>
      obtain ⟨o₁, t, hr, h⟩ := ok_of_bind h
      have hright : Accounted text allowed false [] seen t _ o₁ :=
        ihr token (hx.2.1 token) hseen.reachable (fun _ => False.elim) hr
      simp only [followedBy, behind, hr]
      cases hm : o₁.isMatch with
      | true =>
        simp only [hm, if_true] at h ⊢
        have hthere := hseen.trans hright.told
        refine Accounted.prepend ?_ hthere (Nat.le_trans hle hright.le)
        exact iha token o₁ (hx.2.2 token o₁ hm) hthere.reachable (fun _ => False.elim) h
      | false =>
        simp only [hm, Bool.false_eq_true, if_false] at h ⊢
        cases h
        exact hright.putBack hm hs hseen hle

/-! ## Segments -/

/-- Where a look has found something, a return leads to where a look moves nothing. -/
theorem rested_undone {u seen : Stream lexer} {found : Option Token} (hseen : seen.Reachable text)
    (hp : peek s = .ok found seen) (hu : u.Reachable text) (e : Event) (d : Nat) :
    Rested (((u.returnTo seen.checkpoint).record e).atDepth d) := by
  obtain ⟨k, hk⟩ := hseen.standsAt_place
  obtain ⟨j, hj⟩ := hu.standsAt_place
  have hback : (u.returnTo seen.checkpoint).StandsAt (lexer.place text k) := by
    refine standsAt_returnTo hk (lexer.sound_place text k) ?_
    rw [hj.text_eq, lexer.text_place, lexer.text_place]
  exact (rested_of_peek hp).of_standsAt hk ((hback.record e).atDepth d)

/-- The body of a segment begins where a look leads to. -/
theorem told_opened {seen : Stream lexer} {found : Option Token} {d : Nat} (hs : s.Reachable text)
    (hp : peek (s.atDepth d) = .ok found seen) (p : Segment) (start : Position) :
    Told text allowed s (p.opened start seen) [.stood seen] :=
  have h : Told text allowed (s.atDepth d) seen [.stood seen] := told_peek (hs.nest d) hp
  h.congr rfl (h.reachable.note _) rfl

theorem offset_of_peek_atDepth {seen : Stream lexer} {found : Option Token} {d : Nat}
    (hp : peek (s.atDepth d) = .ok found seen) : seen.offset = (stateOf (peek s)).offset := by
  rw [peek_atDepth] at hp
  split at hp <;> cases hp
  next hs => rw [hs]; rfl

variable {before after : Stream lexer} {inside : Outcome}

theorem reported_match {d : Nat} {options : Options} {span : Span} {began came : Nat}
    (hseen : Told text allowed s before l₁) (hle : s.offset ≤ before.offset)
    (h : Accounted text allowed true [] before after l inside) :
    Reported text allowed s (after.atDepth d)
      (l₁ ++ l ++
        settledIn (.ok (inside.settleMatch inside.data? options span began came) (after.atDepth d)))
      (inside.settleMatch inside.data? options span began came) where
  told := (hseen.trans h.told).trans (told_stood (h.told.reachable.nest d) (Nat.le_refl _))
  le := Nat.le_trans hle h.le
  settled := nofun
  undone := nofun
  progress_eq := nofun

theorem reported_failure {f : Failure} (hseen : Told text allowed s before l₁)
    (hle : s.offset ≤ before.offset) (h : Accounted text allowed true [] before after l inside)
    (hf : inside.verdict = .failed f) (hs' : s'.Reachable text) (hback : s'.offset = before.offset)
    (hlook : before.offset = (stateOf (peek s)).offset) (hrested : Rested s') :
    Reported text allowed s s'
      (l₁ ++ l ++ settledIn (.ok (inside.settleFailure f before.offset after.offset) s'))
      (inside.settleFailure f before.offset after.offset) := by
  have hblamed : Blamed l f (max f.reached after.offset) := h.blamed f hf
  have hstood : ∃ u, .stood u ∈ l₁ ++ l ∧ u.offset = max f.reached after.offset := by
    obtain ⟨origin, u, f', hm, hu, -⟩ := hblamed
    exact ⟨u, List.mem_append_right _ (h.told.missed origin u f' hm), hu⟩
  refine ⟨(hseen.trans h.told).back hs' (hback ▸ hle) (Nat.le_max_right _ _) hstood, hback ▸ hle,
    ?_, fun _ => ⟨hback.trans hlook, hrested⟩, fun _ => by rw [hback]; rfl⟩
  rintro _ ⟨⟩
  refine ⟨?_, by simp [settledIn, followedBy, behind, Outcome.settleFailure], ?_⟩
  · rw [hback]
    exact Nat.le_trans h.le (Nat.le_max_right _ _)
  · obtain ⟨origin, u, f', hm, hu, hf'⟩ := hblamed
    exact ⟨origin, u, f', by simp [hm], hu, hf'⟩

/-- A run with levels left accounts for what it does, if the plan of its body does. -/
theorem reported_succ {levels : Nat} {p : Segment} (hs : s.Reachable text)
    (hbody : ∀ (before after : Stream lexer) inside, before.Reachable text →
      (p.shape.plan g).go g (Segment.runWithin g levels) before = .ok inside after →
      Accounted text allowed true [] before after
        ((p.shape.plan g).sights g (Segment.runWithin g levels) (Segment.sightsWithin g levels)
          before) inside)
    (h : p.runWithin g (levels + 1) s = .ok o s') :
    Reported text allowed s s' (p.sightsWithin g (levels + 1) s) o := by
  obtain ⟨t, ht, rfl⟩ := ok_of_deeper h
  rw [attempt_eq] at ht
  obtain ⟨start, seen, hp, hset⟩ := ok_of_bind ht
  have hset : settled p.options start (p.shape.body g (Segment.runWithin g levels))
      (p.opened start seen) = .ok o t := hset
  obtain ⟨⟨found, hpeek⟩, -⟩ := position_cases (position_of_parse hp)
  have hopened : Told text allowed s (p.opened start seen) [.stood seen] :=
    told_opened hs hpeek p start
  have hlook : seen.offset = (stateOf (peek s)).offset := offset_of_peek_atDepth hpeek
  have hle : s.offset ≤ seen.offset := hlook ▸ hs.offset_le_look
  rw [Segment.sightsWithin_succ, h, hp]
  obtain ⟨inside, after, hb, hend⟩ := settled_cases hset
  have hin := hbody _ _ _ hopened.reachable (by rw [go_plan]; exact hb)
  rcases hend with ⟨hm, rfl, span, rfl⟩ | ⟨f, e, hf, rfl, rfl⟩
  · exact reported_match hopened hle hin
  · have hseen : seen.Reachable text := by
      have hlooked := (hs.nest (s.depth + 1)).look
      rwa [hpeek] at hlooked
    have hback : (after.returnTo seen.checkpoint).Reachable text :=
      .back hin.told.reachable hseen
    exact reported_failure hopened hle hin hf ((hback.note e).nest _) rfl hlook
      (rested_undone hseen hpeek hin.told.reachable e _)

/-- Every run of a segment accounts for what it does. -/
theorem reported_runWithin (hplain : ∀ request, allowed request → request.Plain)
    (hg : g.Throughout (Shape.ScriptIn allowed)) {p : Segment}
    (hp : p.Throughout (Shape.ScriptIn allowed)) (levels : Nat) (hs : s.Reachable text)
    (h : p.runWithin g levels s = .ok o s') :
    Reported text allowed s s' (p.sightsWithin g levels s) o := by
  induction levels generalizing p s o s' with
  | zero =>
    obtain ⟨t, ht, -⟩ := ok_of_deeper h
    obtain ⟨start, u, -, hrefused⟩ := ok_of_bind ht
    cases hrefused
  | succ levels ih =>
    refine reported_succ hs (fun before after inside hbefore hgo => ?_) h
    have hhonest : (p.shape.plan g : Plan lexer).Honest
        (Segment.Throughout (Shape.ScriptIn allowed)) allowed true Plan.noFailures :=
      honest_plan hp.shape (fun q hq => hp.part hq) hg
    have hrun : ∀ q : Segment, q.Throughout (Shape.ScriptIn allowed) →
        Recounts text allowed (q.runWithin g levels : Parse lexer Outcome)
          (q.sightsWithin g levels) := fun q hq t t' o ht ho => ih hq ht ho
    exact Plan.accounts hplain hrun hhonest hbefore (fun _ => False.elim) hgo

end Descent
