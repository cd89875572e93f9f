import Descent.Proofs.Accounts
import Descent.Proofs.Looking

/-!
# What a run consumes

Whatever a run tries and takes back, where it comes to a result it leaves the stream as if it had
handed out some tokens one by one. This follows for a segment if it holds for the segments that its
body runs, by induction on the plan of the body. How far a look at the next token sees tells the
tokens apart that were handed out, and so the progress of a match is zero only if there are none,
although a look may pass over skipped text. Two states of a stream at one offset and depth look
alike, whatever led to them, so a match without progress leaves the stream as if nothing had run.

* `Stream.Gives`: tokens that are handed out one by one.
* `Stream.Gives.sees_add_length_le`: every one of them moves the look on.
* `Plan.Honest.hands`, `hands_run`: runs hand out tokens.
* `Stream.Reachable.looksLike_of_offset_eq`: streams at one offset.
* `offset_of_match`: how far a match leads, scripts included.
* `consumes_run`: the progress of a match against its tokens.
-/
namespace Descent

open Descent.Stream

variable {lexer : Lexer} {text : String} {g : Grammar} {α β : Type} {s t u v : Stream lexer}
  {found : Option Token} {x : Token} {xs ys : List Token} {p : Segment} {o : Descent.Outcome}

/-! ## Handing out tokens -/

theorem Stream.Reachable.of_peek (hs : s.Reachable text) (h : peek s = .ok found t) :
    t.Reachable text := by
  have hlook := hs.look
  rwa [h] at hlook

theorem Stream.Reachable.of_next (hs : s.Reachable text) (h : next s = .ok found t) :
    t.Reachable text := by
  have htake := hs.take
  rwa [h] at htake

theorem Stream.LooksLike.next (h : s.LooksLike t) (hn : next t = .ok found v) :
    ∃ u, next s = .ok found u ∧ Same u v := by
  rw [next_eq] at hn
  cases hp : peek t with
  | error e t' => rw [hp] at hn; cases hn
  | ok found' t' =>
    rw [hp] at hn
    cases hn
    obtain ⟨s', hs', hsame⟩ := h.peek_eq hp
    exact ⟨s'.handOut, by rw [next_eq, hs'], same_handOut hsame⟩

/-- Handing out these tokens one by one leads from `s` to a stream that looks like `t`. -/
inductive Stream.Gives : Stream lexer → List Token → Stream lexer → Prop
  | none {s t : Stream lexer} (h : s.LooksLike t) : Gives s [] t
  | token {s t u : Stream lexer} {x : Token} {xs : List Token} (h : next s = .ok (some x) u)
    (hrest : Gives u xs t) : Gives s (x :: xs) t

theorem Stream.handOut_atDepth (s : Stream lexer) (d : Nat) :
    (s.atDepth d).handOut = s.handOut.atDepth d := by
  obtain ⟨cursor, buffered, lastEnd, depth, journal⟩ := s
  cases buffered <;> rfl

namespace Stream.Gives

theorem refl (s : Stream lexer) : Gives s [] s := .none (.refl s)

theorem of_looksLike (h : Gives t xs v) (hst : s.LooksLike t) : Gives s xs v := by
  induction h generalizing s with
  | none h => exact .none (hst.trans h)
  | token h _ ih =>
    obtain ⟨u, hu, hsame⟩ := hst.next h
    exact .token hu (ih (.of_same hsame))

theorem trans (h : Gives s xs t) (h' : Gives t ys v) : Gives s (xs ++ ys) v := by
  induction h with
  | none h => exact h'.of_looksLike h
  | token h _ ih => exact .token h (ih h')

/-- A look that shows nothing hands out nothing. -/
theorem of_next (h : Stream.next s = .ok found t) : Gives s found.toList t := by
  cases found with
  | some x => exact .token h (.refl t)
  | none =>
    rw [next_eq] at h
    cases hp : peek s with
    | error e s' => rw [hp] at h; cases h
    | ok found s' =>
      rw [hp] at h
      cases h
      have hbuffered : s'.buffered = Option.none := by
        have hagain := peek_again hp
        cases hb : s'.buffered with
        | none => rfl
        | some b => rw [peek_of_buffered hb] at hagain; cases hagain
      rw [handOut, hbuffered]
      exact .none (LooksLike.of_peek hp).symm

theorem depth_eq (h : Gives s xs t) : s.depth = t.depth := by
  induction h with
  | none h => exact h.depth_eq
  | @token s t u x xs h _ ih =>
    have hnext : (stateOf (Stream.next s)).depth = s.depth := depth_next s
    rw [h] at hnext
    exact hnext.symm.trans ih

theorem atDepth (h : Gives s xs t) (d : Nat) : Gives (s.atDepth d) xs (t.atDepth d) := by
  induction h with
  | none h => exact .none (h.atDepth d)
  | @token s t u x xs h _ ih =>
    refine .token ?_ ih
    rw [next_eq] at h ⊢
    rw [peek_atDepth]
    cases hp : peek s with
    | error e s' => rw [hp] at h; cases h
    | ok found s' =>
      rw [hp] at h
      cases h
      exact congrArg (EStateM.Result.ok _) (handOut_atDepth s' d)

/-- What is taken back leaves the stream as it was. -/
theorem looksLike_returnTo (h : Gives s xs t) (hs : s.Reachable text) (ht : t.Reachable text) :
    s.LooksLike (t.returnTo s.checkpoint) := by
  obtain ⟨k, hk⟩ := hs.standsAt_place
  obtain ⟨j, hj⟩ := ht.standsAt_place
  have hback : (t.returnTo s.checkpoint).StandsAt (lexer.place text k) :=
    standsAt_returnTo hk (lexer.sound_place text k) (by
      rw [hj.text_eq, lexer.text_place, lexer.text_place])
  exact .of_bisimilar ⟨⟨_, hk, hback⟩, rfl, h.depth_eq⟩

end Stream.Gives

/-! ## How far a look sees -/

/-- The offset behind a look: that of the next token, or that of the end of the text. -/
def Stream.sees (s : Stream lexer) : Nat := (stateOf (peek s)).offset

theorem Stream.Same.offset_eq (h : Same s t) : s.offset = t.offset := by
  have hbookmark : s.bookmark = t.bookmark := by
    unfold bookmark
    rw [h.buffered, h.cursor]
  exact congrArg (·.position.offset) hbookmark

theorem Stream.LooksLike.sees_eq (h : s.LooksLike t) : s.sees = t.sees := h.left.offset_eq

theorem Stream.sees_atDepth (s : Stream lexer) (d : Nat) : (s.atDepth d).sees = s.sees := by
  unfold sees
  rw [peek_atDepth]
  cases peek s <;> rfl

theorem Stream.Reachable.offset_le_sees (h : s.Reachable text) : s.offset ≤ s.sees :=
  h.offset_le_look

theorem Stream.Reachable.sees_le (h : s.Reachable text) : s.sees ≤ text.toList.length := by
  have hsum := h.look.offset_add_unread
  unfold sees
  omega

/-- A token that is handed out moves the look on. -/
theorem Stream.Reachable.sees_lt (hs : s.Reachable text) (hn : next s = .ok (some x) t) :
    s.sees < t.sees := by
  have ht : t.Reachable text := hs.of_next hn
  have hlook : s.sees < t.offset := by
    rw [next_eq] at hn
    cases hp : peek s with
    | error e u => rw [hp] at hn; cases hn
    | ok found u =>
      have hu : u.Reachable text := hs.of_peek hp
      have hagain : next u = .ok (some x) t := by
        rw [next_eq, peek_again hp]
        rwa [hp] at hn
      have := hu.offset_lt_take hagain
      unfold sees
      rwa [hp]
  exact Nat.lt_of_lt_of_le hlook ht.offset_le_sees

theorem Stream.Gives.sees_add_length_le (h : s.Gives xs t) (hs : s.Reachable text) :
    s.sees + xs.length ≤ t.sees := by
  induction h with
  | none h => exact Nat.le_of_eq h.sees_eq
  | @token s t u x xs h _ ih =>
    have := ih (hs.of_next h)
    have := hs.sees_lt h
    rw [List.length_cons]
    omega

/-- A stream looks the same again only if no token was handed out. -/
theorem Stream.Gives.eq_nil_of_looksLike (h : s.Gives xs t) (hs : s.Reachable text)
    (hst : s.LooksLike t) : xs = [] := by
  have hlength := h.sees_add_length_le hs
  rw [hst.sees_eq] at hlength
  exact List.eq_nil_of_length_eq_zero (by omega)

/-! ## Runs hand out tokens -/

/-- Where it comes to a result it has handed out tokens. -/
def Hands (text : String) (x : Parse lexer α) : Prop :=
  ∀ s a t, s.Reachable text → x s = .ok a t → t.Reachable text ∧ ∃ xs, s.Gives xs t

theorem hands_pure (a : α) : Hands text (pure a : Parse lexer α) := by
  intro s a' t hs h
  cases h
  exact ⟨hs, [], .refl s⟩

theorem hands_throw (e : Stop) : Hands text (throw e : Parse lexer α) := by
  intro s a t _ h
  cases h

theorem Hands.bind {x : Parse lexer α} {f : α → Parse lexer β} (hx : Hands text x)
    (hf : ∀ a, Hands text (f a)) : Hands text (x >>= f) := by
  intro s b v hs h
  obtain ⟨a, t, ha, h⟩ := ok_of_bind h
  obtain ⟨ht, xs, hxs⟩ := hx s a t hs ha
  obtain ⟨hv, ys, hys⟩ := hf a t b v ht h
  exact ⟨hv, xs ++ ys, hxs.trans hys⟩

theorem hands_get_bind {f : Stream lexer → Parse lexer α} (hf : ∀ s, Hands text (f s)) :
    Hands text (get >>= f) := fun s => hf s s

theorem hands_peek : Hands text (Parse.peek : Parse lexer _) := by
  intro s found t hs h
  have hp := peek_of_parse h
  exact ⟨hs.of_peek hp, [], .none (LooksLike.of_peek hp).symm⟩

theorem hands_next : Hands text (Parse.next : Parse lexer _) := by
  intro s found t hs h
  have hn := next_of_parse h
  exact ⟨hs.of_next hn, _, .of_next hn⟩

theorem hands_position : Hands text (Parse.position : Parse lexer _) := by
  intro s start t hs h
  have hposition := position_of_parse h
  obtain ⟨⟨found, hp⟩, -⟩ := position_cases hposition
  exact ⟨hs.of_peek hp, [], .none (LooksLike.of_peek hp).symm⟩

theorem hands_single {shape : Shape} (hshape : shape.Single) (g : Grammar) (run : Runner lexer) :
    Hands text (shape.body g run) := by
  intro s o t hs h
  obtain ⟨found, seen, hp, hend⟩ := singleEnd_body hshape h
  have hseen : seen.Reachable text := hs.of_peek hp
  have hlook : s.LooksLike seen := (LooksLike.of_peek hp).symm
  rcases hend with ⟨-, rfl | ⟨found', hn⟩⟩ | ⟨-, rfl, -⟩
  · exact ⟨hseen, [], .none hlook⟩
  · exact ⟨hseen.of_next hn, _, (Gives.of_next hn).of_looksLike hlook⟩
  · exact ⟨hseen, [], .none hlook⟩

/-- A plan hands out tokens if the segments that it calls do. -/
theorem Plan.Honest.hands {known : Segment → Prop} {own : Bool} {failures : Outcome → Prop}
    {run : Runner lexer} {plan : Plan lexer}
    (h : plan.Honest known (fun _ => False) own failures)
    (hrun : ∀ p, known p → Hands text (run p)) : Hands text (plan.go g run) := by
  induction plan generalizing own failures with
  | done o => exact hands_pure o
  | single shape => exact hands_single h.2 g run
  | script request parts => exact h.2.1.elim
  | stop e => exact hands_throw e
  | complain o =>
    intro s o' t hs hx
    obtain ⟨e, u, -, hrefused⟩ := ok_of_bind hx
    cases hrefused
  | peek answer ih => exact hands_peek.bind fun found => ih found (h found)
  | position answer ih => exact hands_position.bind fun start => ih start (h start)
  | observe answer ih => exact hands_get_bind fun s => ih s (h s)
  | call p answer ih => exact (hrun p h.1).bind fun o => ih o (h.2 o)
  | taking missing right answer ihmissing ihright ihanswer =>
    obtain ⟨hmissing, hright, hanswer⟩ := h
    rw [go_taking]
    intro s o' v hs hx
    obtain ⟨_, _, hget, hx⟩ := ok_of_bind hx
    cases hget
    obtain ⟨found, u, hn, hx⟩ := ok_of_bind hx
    obtain ⟨hu, xs, hxs⟩ := hands_next s found u hs hn
    cases found with
    | none =>
      obtain ⟨hv, ys, hys⟩ := ihmissing hmissing u o' v hu hx
      exact ⟨hv, _, hxs.trans hys⟩
    | some token =>
      obtain ⟨o, w, ho, hx⟩ := ok_of_bind hx
      obtain ⟨hw, ys, hys⟩ := ihright token (hright token) u o w hu ho
      split at hx
      · next hm =>
        obtain ⟨hv, zs, hzs⟩ := ihanswer token o (hanswer token o hm) w o' v hw hx
        exact ⟨hv, _, (hxs.trans hys).trans hzs⟩
      · -- The token is put back.
        obtain ⟨_, _, hmodify, hx⟩ := ok_of_bind hx
        cases hmodify
        cases hx
        exact ⟨.back hw hs, [], .none ((hxs.trans hys).looksLike_returnTo hs hw)⟩

theorem hands_attempt (options : Options) {body : Parse lexer Outcome} (h : Hands text body) :
    Hands text (attempt options body) := by
  rw [attempt_eq]
  refine hands_position.bind fun start s o t hs hx => ?_
  obtain ⟨inside, behind, hb, hend⟩ := settled_cases hx
  have hentered := LooksLike.record s (.entered (options.label.getD "<segment>") s.depth start)
  obtain ⟨hbehind, xs, hxs⟩ := h _ _ _ (hs.note _) hb
  rcases hend with ⟨-, rfl, -⟩ | ⟨f, e, -, -, rfl⟩
  · exact ⟨hbehind, xs, hxs.of_looksLike hentered.symm⟩
  · have hback := (hxs.looksLike_returnTo (hs.note _) hbehind).trans (LooksLike.record _ e).symm
    exact ⟨(Reachable.back hbehind (hs.note _)).note e, [], .none (hentered.symm.trans hback)⟩

theorem hands_deeper {x : Parse lexer α} (h : Hands text x) : Hands text (Parse.deeper x) := by
  intro s a t hs hx
  obtain ⟨v, hv, rfl⟩ := ok_of_deeper hx
  obtain ⟨hvreachable, xs, hxs⟩ := h _ a v (hs.nest _) hv
  have hdepth : v.depth - 1 = s.depth := by
    rw [← hxs.depth_eq, depth_atDepth, Nat.add_sub_cancel]
  exact ⟨hvreachable.nest _, xs, hdepth ▸ hxs.atDepth s.depth⟩

/-- By induction on the levels, since the plan of a body is honest about the segments it calls. -/
theorem hands_runWithin (hg : g.Scriptless) (hp : p.Scriptless) (levels : Nat) :
    Hands text (p.runWithin g levels : Parse lexer Outcome) := by
  induction levels generalizing p with
  | zero => exact hands_deeper (hands_position.bind fun start => hands_throw _)
  | succ levels ih =>
    have hplan : (p.shape.plan g : Plan lexer).Honest Segment.Scriptless (fun _ => False) true
        Plan.noFailures := honest_plan hp.shape (fun q hq => hp.part hq) hg
    have hbody : Hands text (p.shape.body g (Segment.runWithin g levels) : Parse lexer _) := by
      rw [← go_plan]
      exact hplan.hands fun q hq => ih hq
    exact hands_deeper (hands_attempt _ hbody)

/-- What a run leaves behind it is a stream that has handed out tokens one by one. -/
theorem hands_run (hg : g.Scriptless) (hp : p.Scriptless) :
    Hands text (p.run g : Parse lexer Outcome) :=
  fun s o t hs h => hands_runWithin hg hp _ s o t hs h

/-! ## Streams at one offset -/

theorem Cursor.Reaches.eq_of_offset_eq {c d : Cursor} {k : Nat} (h : Cursor.Reaches k c d)
    (heq : c.position.offset = d.position.offset) : c = d := by
  obtain ⟨n, -, hn, rfl⟩ := h
  rw [offset_skip hn] at heq
  obtain rfl : n = 0 := by omega
  exact (skip_zero c).symm

namespace Lexer

theorem place_eq_of_offset_eq {j k : Nat}
    (heq : (lexer.place text j).position.offset = (lexer.place text k).position.offset) :
    lexer.place text j = lexer.place text k := by
  rcases Nat.le_total j k with hle | hle
  · exact (lexer.reaches_place text hle).eq_of_offset_eq heq
  · exact ((lexer.reaches_place text hle).eq_of_offset_eq heq.symm).symm

/-- The end of the last token among those that the lexer finds in so many readings of the text. -/
def lastStop (lexer : Lexer) (text : String) : Nat → Position
  | 0 => .start
  | k + 1 =>
    match lexer.found (lexer.place text k) with
    | .ok (some token) => token.span.stop
    | _ => lastStop lexer text k

theorem lastStop_of_token {k : Nat} (h : lexer.found (lexer.place text k) = .ok (some x)) :
    lexer.lastStop text (k + 1) = x.span.stop := by
  rw [lastStop, h]

theorem lastStop_of_no_token {k : Nat}
    (h : ∀ x, lexer.found (lexer.place text k) ≠ .ok (some x)) :
    lexer.lastStop text (k + 1) = lexer.lastStop text k := by
  rw [lastStop]
  split
  · next token htoken => exact absurd htoken (h token)
  · rfl

/-- Readings that do not move find no token, so they leave the last one what it was. -/
theorem lastStop_eq_of_place_eq {j k : Nat} (hjk : j ≤ k)
    (h : lexer.place text j = lexer.place text k) :
    lexer.lastStop text j = lexer.lastStop text k := by
  induction hjk with
  | refl => rfl
  | @step k hjk ih =>
    have hbetween := lexer.reaches_place text hjk
    have hlast := lexer.reaches_pass (lexer.place text k)
    have hplace : lexer.place text j = lexer.place text k := by
      refine hbetween.eq_of_offset_eq (Nat.le_antisymm hbetween.offset_le ?_)
      rw [h]
      exact hlast.offset_le
    rw [ih hplace]
    refine (lastStop_of_no_token fun x hx => ?_).symm
    have hmoved := (lexer.reaches_pass_of_found (by rw [hx]; simp)).length_le
    have hstill : lexer.pass (lexer.place text k) = lexer.place text k := h.symm.trans hplace
    rw [hstill] at hmoved
    omega

end Lexer

/-- What a stream keeps of the past is the end of the last token before its place. -/
theorem Stream.Reachable.lastEnd_eq (h : s.Reachable text) :
    ∃ k, s.StandsAt (lexer.place text k) ∧ s.lastEnd = lexer.lastStop text k := by
  induction h with
  | start => exact ⟨0, standsAt_ofString text, rfl⟩
  | @look s _ ih =>
    obtain ⟨k, hk, hend⟩ := ih
    have hframe : (stateOf (peek s)).lastEnd = s.lastEnd := (peek_frame s).1
    rcases peek_cases hk with ⟨x, s', hf, hp, hsame⟩ | ⟨hf, hp⟩ | ⟨e, hf, hp⟩ <;>
      rw [hp] at hframe ⊢
    · exact ⟨k, hsame.symm.standsAt (standsAt_holding hf), hframe.trans hend⟩
    · refine ⟨k + 1, standsAt_passing s _, (hframe.trans hend).trans ?_⟩
      exact (Lexer.lastStop_of_no_token fun x hx => by rw [hf] at hx; cases hx).symm
    · refine ⟨k + 1, standsAt_passing s _, (hframe.trans hend).trans ?_⟩
      exact (Lexer.lastStop_of_no_token fun x hx => by rw [hf] at hx; cases hx).symm
  | @take s _ ih =>
    obtain ⟨k, hk, hend⟩ := ih
    refine ⟨k + 1, standsAt_next hk, ?_⟩
    rw [next_eq]
    rcases peek_cases hk with ⟨x, s', hf, hp, hsame⟩ | ⟨hf, hp⟩ | ⟨e, hf, hp⟩ <;> rw [hp]
    · rw [Lexer.lastStop_of_token hf]
      exact (handOut_of_holding hsame).lastEnd
    · rw [Lexer.lastStop_of_no_token fun x hx => by rw [hf] at hx; cases hx]
      exact hend
    · rw [Lexer.lastStop_of_no_token fun x hx => by rw [hf] at hx; cases hx]
      exact hend
  | back hs _ _ iht =>
    obtain ⟨j, hj⟩ := hs.standsAt_place
    obtain ⟨k, hk, hend⟩ := iht
    refine ⟨k, standsAt_returnTo hk (lexer.sound_place text k) ?_, hend⟩
    rw [hj.text_eq, lexer.text_place, lexer.text_place]
  | nest _ d ih => exact ih
  | note _ e ih => exact ih

/-- Whatever led to them, two states at one offset can not be told apart. -/
theorem Stream.Reachable.looksLike_of_offset_eq (hs : s.Reachable text) (ht : t.Reachable text)
    (hdepth : s.depth = t.depth) (heq : s.offset = t.offset) : s.LooksLike t := by
  obtain ⟨j, hj, hsend⟩ := hs.lastEnd_eq
  obtain ⟨k, hk, htend⟩ := ht.lastEnd_eq
  have hplace : lexer.place text j = lexer.place text k := by
    rw [hj.offset_eq, hk.offset_eq] at heq
    exact Lexer.place_eq_of_offset_eq heq
  have hstop : lexer.lastStop text j = lexer.lastStop text k := by
    rcases Nat.le_total j k with hle | hle
    · exact Lexer.lastStop_eq_of_place_eq hle hplace
    · exact (Lexer.lastStop_eq_of_place_eq hle hplace.symm).symm
  exact .of_bisimilar ⟨⟨_, hj, hplace ▸ hk⟩, by rw [hsend, htend, hstop], hdepth⟩

/-! ## Progress -/

theorem Stream.sees_of_peek (hp : peek s = .ok found t) : s.sees = t.offset := by
  rw [sees, hp]
  rfl

/-- The body of a segment begins behind a look. -/
theorem Segment.Begins.offset_eq_sees (h : p.Begins g s u) (hs : s.Reachable text) :
    u.offset = s.sees := by
  obtain ⟨start, w, hposition, rfl, -, -⟩ := h.exists_start hs
  obtain ⟨⟨found, hp⟩, -⟩ := position_cases hposition
  rw [← s.sees_atDepth (s.depth + 1), sees_of_peek hp]
  rfl

/-- A match ends as far behind the first token that it sees as its progress says. -/
theorem offset_of_match (hs : s.Reachable text) (h : p.Matches g s o t) :
    t.offset = s.sees + o.progress := by
  obtain ⟨u, hu⟩ := begins_of_run h.1
  obtain ⟨inside, behind, hbody, -, hmatch⟩ := run_ok_of_begins hu h.1
  obtain ⟨rfl, span, rfl⟩ := hmatch h.2
  have hforward : Forward text (p.shape.body g (Segment.run g) : Parse lexer Outcome) :=
    .of_keeps fun _ => keeps_body (fun q => Segment.keeps_run g q) g p.shape
  have hle : u.offset ≤ behind.offset := by
    have hend := hforward u (hu.reachable hs)
    rwa [hbody] at hend
  have hprogress : (inside.settleMatch inside.data? p.options span u.offset
      behind.offset).progress = behind.offset - u.offset := rfl
  rw [hprogress, ← hu.offset_eq_sees hs]
  show behind.offset = _
  omega

/-- Behind a match without progress the stream looks as it did before. -/
theorem looksLike_of_progress_eq_zero (hs : s.Reachable text) (h : p.Matches g s o t)
    (hzero : o.progress = 0) : t.LooksLike s := by
  obtain ⟨found, seen, hp⟩ := peek_of_run h.1
  have hdepth : t.depth = seen.depth := by
    have hrun := Segment.depth_run g p s
    have hlook := (peek_frame s).2
    rw [h.1] at hrun
    rw [hp] at hlook
    exact hrun.trans hlook.symm
  have hoffset : t.offset = seen.offset := by
    rw [offset_of_match hs h, hzero, sees_of_peek hp, Nat.add_zero]
  have hlike := (run_reachable hs h.1).looksLike_of_offset_eq (hs.of_peek hp) hdepth hoffset
  exact hlike.trans (.of_peek hp)

/-- A match has consumed tokens, and its progress is zero exactly if there are none of them. -/
theorem consumes_run (hg : g.Scriptless) (hp : p.Scriptless) (hs : s.Reachable text)
    (h : p.Matches g s o t) : ∃ xs, s.Gives xs t ∧ (o.progress = 0 ↔ xs = []) := by
  obtain ⟨ht, xs, hxs⟩ := hands_run hg hp s o t hs h.1
  refine ⟨xs, hxs, fun hzero => ?_, ?_⟩
  · exact hxs.eq_nil_of_looksLike hs (looksLike_of_progress_eq_zero hs h hzero).symm
  · rintro rfl
    cases hxs with
    | none hlook =>
      have hoffset := offset_of_match hs h
      have hbehind := ht.offset_le_sees
      rw [← hlook.sees_eq] at hbehind
      omega

/-- However the tokens are told. -/
theorem progress_eq_zero_iff (hg : g.Scriptless) (hp : p.Scriptless) (hs : s.Reachable text)
    (h : p.Matches g s o t) (hxs : s.Gives xs t) : o.progress = 0 ↔ xs = [] := by
  obtain ⟨ys, hys, hprogress⟩ := consumes_run hg hp hs h
  rw [hprogress]
  constructor
  · rintro rfl
    cases hys with
    | none hlook => exact hxs.eq_nil_of_looksLike hs hlook
  · rintro rfl
    cases hxs with
    | none hlook => exact hys.eq_nil_of_looksLike hs hlook

end Descent
