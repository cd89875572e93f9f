import Descent.Proofs.DepthLimit
import Descent.Proofs.Sights
import Mathlib.Logic.Relation

/-!
# The runs inside a run

A segment runs the segments in it, and those run others. All of them run under the same limit, so
the levels that are left can be read off the depth of the stream (`run_eq`). A run that would go
beyond the limit does not begin its body, and as no plan goes on behind an error, its error is the
error of every run around it.

* `run_eq`: a run is its guarded body, and the runs inside are runs under the limit.
* `Plan.Calls`, `Segment.Calls`: the runs that a plan and a body ask for, and from which state.
* `depth_calls`, `error_calls`: such a run is one level deeper, and its error goes through.
* `depth_binds`: the depth and the limit, for a run and all the runs inside of it.
-/
namespace Descent

open Descent.Stream

variable {lexer : Lexer} {g : Grammar}

/-! ## Runs under a limit -/

/-- At this depth of nesting. -/
def Stream.AtLevel (depth : Nat) (s : Stream lexer) : Prop := s.depth = depth

instance (depth : Nat) : Steady (AtLevel depth : Stream lexer → Prop) where
  look h := (peek_frame _).2.trans h
  take h := (depth_next _).trans h
  back hs _ := hs
  enter h _ _ := h
  remark h _ _ := h

/-- What ends every operation at the depth at which it began stays at its level. -/
theorem Keeps.atLevel {α : Type} {x : Parse lexer α} (h : Keeps (fun _ => True) x) (depth : Nat) :
    Keeps (AtLevel depth) x := fun s hs =>
  have hd : (stateOf (x s)).depth = s.depth := (h s trivial).2
  ⟨hd.trans hs, hd⟩

/-- A run is its body, one level deeper and undone without a match. The segments inside are run
under the limit of the grammar like the segment itself. -/
theorem run_eq (g : Grammar) (p : Segment) (s : Stream lexer) :
    p.run g s = guarded g p.options (p.shape.body g (Segment.run g)) s := by
  have hinner (q : Segment) : Follows (AtLevel (s.depth + 1)) (fun _ => False)
      (innerRun g s q) (q.run g) :=
    ⟨(Segment.keeps_runWithin g _ q).atLevel _, fun t ht => Or.inl (innerRun_eq_run g q ht)⟩
  have hscript : p.shape.ScriptIn (Script.Forthright (fun _ => False) (g.maxDepth = g.maxDepth)) :=
    p.shape.scriptIn fun request => request.forthright_of_none (fun _ => id) rfl
  have hbody : Follows (AtLevel (s.depth + 1)) (fun _ => False) (p.shape.body g (innerRun g s))
      (p.shape.body g (Segment.run g)) :=
    follows_body (Q := fun _ => True) (fun q => (hinner q).keeps) (fun q _ => hinner q)
      (fun _ => rfl) (fun _ _ _ => trivial) hscript fun _ _ => trivial
  have hattempt := (follows_attempt p.options hbody).agrees (s.atDepth (s.depth + 1)) rfl
  rw [run_eq_guarded]
  unfold guarded
  split
  · rcases hattempt with he | ⟨_, _, _, hf⟩
    · rw [deeper_apply, deeper_apply, he]
    · exact hf.elim
  · rfl

/-! ## Calls -/

/-- The plan, followed from a state, runs the segment `q` from the state `t`. The runs that a script
makes are not told of: a script may go on behind their errors. -/
inductive Plan.Calls (g : Grammar) (run : Runner lexer) (q : Segment) (t : Stream lexer) :
    Plan lexer → Stream lexer → Prop
  | here (answer : Outcome → Plan lexer) : Calls g run q t (.call q answer) t
  | behind {p : Segment} {answer : Outcome → Plan lexer} {s s' : Stream lexer} {o : Outcome}
    (h : run p s = .ok o s') (hc : Calls g run q t (answer o) s') :
    Calls g run q t (.call p answer) s
  | peek {answer : Option Token → Plan lexer} {s s' : Stream lexer} {found : Option Token}
    (h : Parse.peek s = .ok found s') (hc : Calls g run q t (answer found) s') :
    Calls g run q t (.peek answer) s
  | position {answer : Position → Plan lexer} {s s' : Stream lexer} {p : Position}
    (h : Parse.position s = .ok p s') (hc : Calls g run q t (answer p) s') :
    Calls g run q t (.position answer) s
  | observe {answer : Stream lexer → Plan lexer} {s : Stream lexer}
    (hc : Calls g run q t (answer s) s) : Calls g run q t (.observe answer) s
  | missing {missing : Plan lexer} {right : Token → Plan lexer}
    {answer : Token → Outcome → Plan lexer} {s s' : Stream lexer}
    (h : Parse.next s = .ok none s') (hc : Calls g run q t missing s') :
    Calls g run q t (.taking missing right answer) s
  | right {missing : Plan lexer} {right : Token → Plan lexer}
    {answer : Token → Outcome → Plan lexer} {s s' : Stream lexer} {token : Token}
    (h : Parse.next s = .ok (some token) s') (hc : Calls g run q t (right token) s') :
    Calls g run q t (.taking missing right answer) s
  | taken {missing : Plan lexer} {right : Token → Plan lexer}
    {answer : Token → Outcome → Plan lexer} {s seen s' : Stream lexer} {token : Token} {o : Outcome}
    (h : Parse.next s = .ok (some token) seen) (hright : (right token).go g run seen = .ok o s')
    (hm : o.isMatch = true) (hc : Calls g run q t (answer token o) s') :
    Calls g run q t (.taking missing right answer) s

section

variable {run : Runner lexer}

/-- Following a plan stays among the states of the stream and at its depth, if the runs in it do. -/
theorem Plan.keeps_go {I : Stream lexer → Prop} [Steady I] (hrun : ∀ p, Keeps I (run p))
    (plan : Plan lexer) : Keeps I (plan.go g run) := by
  induction plan with
  | done o => exact keeps_pure o
  | single shape => exact keeps_body hrun g shape
  | script request parts =>
    refine keeps_script request _ (fun x hx => ?_) [] (by simp)
    obtain ⟨p, -, rfl⟩ := List.mem_map.1 hx
    exact hrun p
  | stop e => exact keeps_throw e
  | complain o => exact keeps_bind (keeps_complaint o) keeps_refuse
  | peek answer ih => exact keeps_bind keeps_peek ih
  | position answer ih => exact keeps_bind keeps_position ih
  | observe answer ih => exact keeps_get_bind fun s _ => ih s
  | call p answer ih => exact keeps_bind (hrun p) ih
  | taking missing right answer ihm ihr iha =>
    rw [go_taking]
    refine keeps_get_bind fun before hbefore => keeps_bind keeps_next fun found => ?_
    cases found with
    | none => exact ihm
    | some token =>
      refine keeps_bind (ihr token) fun o => ?_
      split
      · exact iha token o
      · exact keeps_bind (keeps_returnTo hbefore) fun _ => keeps_pure o

/-- At whatever point a plan runs a segment, it is at the depth at which it began. -/
theorem Plan.Calls.depth_eq (hrun : ∀ p, Keeps (fun _ => True) (run p)) {q : Segment}
    {t s : Stream lexer} {plan : Plan lexer} (h : plan.Calls g run q t s) : t.depth = s.depth := by
  have hkept {α : Type} {x : Parse lexer α} (hx : Keeps (fun _ => True) x) {a : α}
      {s s' : Stream lexer} (he : x s = .ok a s') : s'.depth = s.depth := by
    have hd : (stateOf (x s)).depth = s.depth := (hx s trivial).2
    rwa [he] at hd
  induction h with
  | here => rfl
  | behind h _ ih => exact ih.trans (hkept (hrun _) h)
  | peek h _ ih => exact ih.trans (hkept keeps_peek h)
  | position h _ ih => exact ih.trans (hkept keeps_position h)
  | observe _ ih => exact ih
  | missing h _ ih => exact ih.trans (hkept keeps_next h)
  | right h _ ih => exact ih.trans (hkept keeps_next h)
  | taken h hright _ _ ih =>
    exact ih.trans ((hkept (Plan.keeps_go hrun _) hright).trans (hkept keeps_next h))

/-- A plan does not go on behind the error of a segment that it runs. -/
theorem Plan.Calls.error {q : Segment} {t t' s : Stream lexer} {plan : Plan lexer} {e : Stop}
    (h : plan.Calls g run q t s) (he : run q t = .error e t') :
    ∃ s', plan.go g run s = .error e s' := by
  induction h with
  | here answer => exact ⟨t', by rw [go_call, bind_apply, he]⟩
  | behind h _ ih => rwa [go_call, bind_apply, h]
  | peek h _ ih => rwa [go_peek, bind_apply, h]
  | position h _ ih => rwa [go_position, bind_apply, h]
  | observe _ ih => exact ih
  | missing h _ ih =>
    rw [go_taking]
    simp only [bind_apply, get_apply, h]
    exact ih
  | right h _ ih =>
    obtain ⟨s', hs'⟩ := ih
    refine ⟨s', ?_⟩
    rw [go_taking]
    simp only [bind_apply, get_apply, h, hs']
  | taken h hright hm _ ih =>
    rw [go_taking]
    simp only [bind_apply, get_apply, h, hright, hm, if_true]
    exact ih

end

namespace Segment

/-- A run of `p` from `s` begins its body in the state `u`. -/
def Begins (g : Grammar) (p : Segment) (s u : Stream lexer) : Prop :=
  s.depth < g.maxDepth ∧
    ∃ start seen, Parse.position (s.atDepth (s.depth + 1)) = .ok start seen ∧
      u = p.opened start seen

/-- A run of `p` from `s` runs the segment `q` from the state `t`. -/
def Calls (g : Grammar) (c d : Segment × Stream lexer) : Prop :=
  ∃ u, c.1.Begins g c.2 u ∧ (c.1.shape.plan g).Calls g (run g) d.1 d.2 u

/-- The segment `q` is run from `t` on the way, at whatever remove. -/
abbrev Leads (g : Grammar) : Segment × Stream lexer → Segment × Stream lexer → Prop :=
  Relation.ReflTransGen (Calls g)

end Segment

/-- The error keeps a body from being begun under this limit. -/
def ParseError.Bars (limit : Nat) (e : ParseError) : Prop :=
  (∃ r, e = .reading r) ∨ ∃ p, e = .tooDeep p limit

/-- A body begins at the depth that the limit allows. -/
theorem Segment.Begins.depth_le {p : Segment} {s u : Stream lexer} (h : p.Begins g s u) :
    u.depth = s.depth + 1 ∧ u.depth ≤ g.maxDepth := by
  obtain ⟨hlt, start, seen, hp, rfl⟩ := h
  have hd : (stateOf (Parse.position (s.atDepth (s.depth + 1)))).depth = s.depth + 1 :=
    (keeps_position (I := fun _ => True) _ trivial).2
  rw [hp] at hd
  exact ⟨hd, Nat.le_trans (Nat.le_of_eq hd) hlt⟩

/-- What does not begin ends in the same error whatever the body is: the match is not looked for. -/
theorem guarded_of_not_begins {p : Segment} {s : Stream lexer} (h : ∀ u, ¬ p.Begins g s u) :
    ∃ e s', e.Bars g.maxDepth ∧ ∀ body, guarded g p.options body s = .error (.error e) s' := by
  unfold guarded
  cases hp : Stream.position (s.atDepth (s.depth + 1)) with
  | error r seen =>
    refine ⟨.reading r, seen.atDepth (seen.depth - 1), Or.inl ⟨r, rfl⟩, fun body => ?_⟩
    split
    · rw [deeper_apply, attempt_apply, hp]
    · rw [deeper_apply, tooDeep, bind_apply, position_apply, hp]
  | ok start seen =>
    have hdeep : ¬ s.depth < g.maxDepth := fun hlt =>
      h _ ⟨hlt, start, seen, by rw [position_apply, hp], rfl⟩
    refine ⟨.tooDeep start g.maxDepth, seen.atDepth (seen.depth - 1), Or.inr ⟨start, rfl⟩,
      fun body => ?_⟩
    rw [if_neg hdeep, deeper_apply, tooDeep, bind_apply, position_apply, hp]
    rfl

/-- The error of a body is the error of the run. -/
theorem run_error_of_begins {p : Segment} {s u u' : Stream lexer} {e : Stop}
    (h : p.Begins g s u) (hb : p.shape.body g (Segment.run g) u = .error e u') :
    ∃ s', p.run g s = .error e s' := by
  obtain ⟨hlt, start, seen, hp, rfl⟩ := h
  rw [run_eq, guarded, if_pos hlt, deeper_apply, attempt_apply, position_of_parse hp]
  simp only [settled]
  rw [show seen.record _ = p.opened start seen from rfl, hb]
  exact ⟨_, rfl⟩

/-! ## One run inside another -/

/-- A segment that is run by another one is run one level deeper. -/
theorem depth_calls {c d : Segment × Stream lexer} (h : Segment.Calls g c d) :
    d.2.depth = c.2.depth + 1 := by
  obtain ⟨u, hu, hc⟩ := h
  have hd : d.2.depth = u.depth := hc.depth_eq fun p => Segment.keeps_run g p
  exact hd.trans hu.depth_le.1

/-- The error of a run is the error of the run around it. -/
theorem error_calls {c d : Segment × Stream lexer} (h : Segment.Calls g c d) {e : Stop}
    {t' : Stream lexer} (he : d.1.run g d.2 = .error e t') : ∃ s', c.1.run g c.2 = .error e s' := by
  obtain ⟨u, hu, hc⟩ := h
  obtain ⟨u', hu'⟩ := hc.error he
  rw [go_plan] at hu'
  exact run_error_of_begins hu hu'

/-! ## All runs inside another -/

theorem error_leads {c d : Segment × Stream lexer} (h : Segment.Leads g c d) {e : Stop}
    {t' : Stream lexer} (he : d.1.run g d.2 = .error e t') : ∃ s', c.1.run g c.2 = .error e s' := by
  induction h using Relation.ReflTransGen.head_induction_on with
  | refl => exact ⟨t', he⟩
  | head hc _ ih =>
    obtain ⟨s', hs'⟩ := ih
    exact error_calls hc hs'

/-- A run does not note a body beyond the limit, however deep it begins itself. -/
theorem within_run (g : Grammar) (p : Segment) {s : Stream lexer} (h : s.Within g.maxDepth) :
    (stateOf (p.run g s)).Within g.maxDepth := by
  unfold Segment.run
  rcases Nat.le_total s.depth g.maxDepth with hle | hle
  · exact (shallow_runWithin g (by omega) p s ⟨rfl, hle, h⟩).1.within
  · rw [Nat.sub_eq_zero_of_le hle, Segment.runWithin_zero, deeper_apply]
    have hl : (stateOf (peek (s.atDepth (s.depth + 1)))).Within g.maxDepth :=
      Stream.Within.look (s := s.atDepth (s.depth + 1)) h
    rw [← stateOf_tooDeep g.maxDepth] at hl
    cases ht : (tooDeep g.maxDepth : Parse lexer Outcome) (s.atDepth (s.depth + 1)) <;>
      rw [ht] at hl <;> exact hl

/-- The depth is the same before and behind every run of a segment or a rule, however it ends. Of
the runs that a run leads to, none begins its body beyond the limit: no event tells of such a body,
one that starts at the limit ends in an error that it would end in with any other body, and the
errors of all of them are the error of the run that led to them. -/
theorem depth_binds (g : Grammar) (s : Stream lexer) :
    (∀ p : Segment, (stateOf (p.run g s)).depth = s.depth) ∧
    (∀ r : Rule, (stateOf (r.run g s)).depth = s.depth) ∧
    (∀ p : Segment, s.Within g.maxDepth → (stateOf (p.run g s)).Within g.maxDepth) ∧
    ∀ (p q : Segment) (t : Stream lexer), Segment.Leads g (p, s) (q, t) →
      (∀ u, q.Begins g t u → u.depth = t.depth + 1 ∧ u.depth ≤ g.maxDepth) ∧
      (g.maxDepth ≤ t.depth → ∃ e t', e.Bars g.maxDepth ∧ q.run g t = .error (.error e) t' ∧
        ∀ body, guarded g q.options body t = .error (.error e) t') ∧
      (∀ e t', q.run g t = .error e t' → ∃ s', p.run g s = .error e s') := by
  refine ⟨fun p => Segment.depth_run g p s,
    fun r => (Rule.keeps_run (I := fun _ => True) g r s trivial).2,
    fun p h => within_run g p h, fun p q t h => ⟨fun u hu => hu.depth_le, fun hle => ?_,
      fun e t' he => error_leads h he⟩⟩
  obtain ⟨e, t', he, hall⟩ : ∃ e t', e.Bars g.maxDepth ∧
      ∀ body, guarded g q.options body t = .error (.error e) t' :=
    guarded_of_not_begins fun u hu => Nat.not_lt_of_le hle hu.1
  exact ⟨e, t', he, by rw [run_eq, hall], hall⟩

/-- Under a limit of one level a rule for two words begins, but its first word does not. -/
theorem depth_binds_twoWords :
    let g : Grammar := { maxDepth := 1 }
    let s : Stream wordsAndBlanks := .ofString "a a"
    s.Within g.maxDepth ∧ ∃ t, Segment.Leads g (twoWords.toSegment, s) (.ofKind "word", t) ∧
      g.maxDepth ≤ t.depth ∧ (stateOf (twoWords.run g s)).depth = 0 ∧
      (stateOf (twoWords.toSegment.run g s)).Within g.maxDepth ∧
      ∃ e s', e.Bars g.maxDepth ∧ twoWords.toSegment.run g s = .error (.error e) s' := by
  intro g s
  obtain ⟨u, hu⟩ : ∃ u, twoWords.toSegment.Begins g s u := ⟨_, by decide, _, _, rfl, rfl⟩
  have hleads : Segment.Leads g (twoWords.toSegment, s) (.ofKind "word", u) :=
    .single ⟨u, hu, .here _⟩
  obtain ⟨-, hrule, hwithin, hruns⟩ := depth_binds g s
  obtain ⟨-, hbars, hthrough⟩ := hruns _ _ u hleads
  have hlimit : g.maxDepth ≤ u.depth := Nat.le_of_eq hu.depth_le.1.symm
  obtain ⟨e, t', he, hrun, -⟩ := hbars hlimit
  obtain ⟨s', hs'⟩ := hthrough _ t' hrun
  have hnone : s.Within g.maxDepth := by decide
  exact ⟨hnone, u, hleads, hlimit, hrule twoWords, hwithin _ hnone, e, s', he, hs'⟩

end Descent
