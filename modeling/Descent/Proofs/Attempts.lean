import Descent.Proofs.Ending
import Descent.Proofs.Mirroring

/-!
# An attempt inside an attempt

A segment that does nothing but run another one settles what that one has settled already. The two
look at the same first token, the match has its span, and the failure has the furthest offset, which
does not lie before the start. So the two are one attempt with the options of both, one level less
deep.

* `settleMatch_settleMatch`, `settleFailure_settleFailure`: what is settled twice.
* `Stream.Alike`, `Stream.Alike.undone`: streams over a text that show the same, at whatever depth.
* `forward_body`: no body ends before its start.
* `meets_attempt_attempt`: the attempt inside an attempt against the single one.
-/
namespace Descent

open Descent.Stream

variable {lexer : Lexer} {text : String} {P : Stop → Prop}

/-! ## Settling twice -/

/-- The options of a segment around a segment with those of that one. -/
def Options.over (outer inner : Options) : Options where
  key := outer.key.or inner.key
  nesting := if outer.nesting = .inherit then inner.nesting else outer.nesting
  label := outer.label

/-- A label adds nothing to the options around it. -/
theorem Options.over_labelled (options : Options) (label : Option String) :
    options.over { label := label } = options := by
  obtain ⟨key, nesting, label'⟩ := options
  cases nesting <;> simp [Options.over]

namespace Outcome

theorem settleMatch_settleMatch (o : Outcome) (data : Option Value) (inner outer : Options)
    (span : Span) (began came : Nat) :
    (o.settleMatch data inner span began came).settleMatch
        (o.settleMatch data inner span began came).data? outer span began came =
      o.settleMatch data (outer.over inner) span began came := by
  have hdata : (data.map (located span)).map (located span) = data.map (located span) := by
    cases data with
    | none => rfl
    | some v => exact congrArg some (located_located span span v)
  simp only [settleMatch, data?, Options.over, hdata, Option.or_assoc]
  by_cases h : outer.nesting = .inherit <;> simp only [h, if_true, if_false]

/-- The failure that is settled as it is: it reached at least the place where the attempt began. -/
theorem settleFailure_of_le {o : Outcome} {f : Failure} (hf : o.verdict = .failed f)
    {began : Nat} (hle : began ≤ f.reached) (hp : o.progress = f.reached - began) :
    o.settleFailure f began began = o := by
  obtain ⟨verdict, key, nesting, progress⟩ := o
  simp only at hf hp
  subst hf hp
  simp only [settleFailure, Nat.max_eq_left hle]

end Outcome

/-! ## Streams that are alike -/

/-- The streams over the text differ in their depth and their journals only. -/
structure Stream.Alike (text : String) (s t : Stream lexer) : Prop where
  view : SameView s t
  left : s.Reachable text
  right : t.Reachable text

instance (text : String) : DeepCoupling (Alike text : Stream lexer → Stream lexer → Prop) where
  view h := h.view
  look h := ⟨h.view.look.2, h.left.look, h.right.look⟩
  take h := ⟨h.view.take.2, h.left.take, h.right.take⟩
  back h h' := ⟨h.view.back h'.view, .back h.left h'.left, .back h.right h'.right⟩
  enter h _ _ := ⟨h.view.record _ _, .note h.left _, .note h.right _⟩
  remark h _ _ _ := ⟨h.view.record _ _, .note h.left _, .note h.right _⟩
  nest h := ⟨h.view.atDepth _ _, .nest h.left _, .nest h.right _⟩
  leave h := ⟨h.view.atDepth _ _, .nest h.left _, .nest h.right _⟩

theorem Stream.Alike.refl {s : Stream lexer} (h : s.Reachable text) : Alike text s s :=
  ⟨⟨rfl, rfl, rfl⟩, h, h⟩

theorem Stream.Alike.nest_right {s t : Stream lexer} (h : Alike text s t) (d : Nat) :
    Alike text s (t.atDepth d) :=
  ⟨h.view.atDepth s.depth d, h.left, .nest h.right d⟩

theorem Stream.Alike.note_right {s t : Stream lexer} (h : Alike text s t) (e : Event) :
    Alike text s (t.record e) :=
  ⟨⟨h.view.cursor, h.view.buffered, h.view.lastEnd⟩, h.left, .note h.right e⟩

theorem Stream.Alike.symm {s t : Stream lexer} (h : Alike text s t) : Alike text t s :=
  ⟨⟨h.view.cursor.symm, h.view.buffered.symm, h.view.lastEnd.symm⟩, h.right, h.left⟩

theorem Stream.Alike.trans {s t u : Stream lexer} (h : Alike text s t) (k : Alike text t u) :
    Alike text s u :=
  ⟨⟨h.view.cursor.trans k.view.cursor, h.view.buffered.trans k.view.buffered,
    h.view.lastEnd.trans k.view.lastEnd⟩, h.left, k.right⟩

/-- A stream whose cursor was put back before can be put back once more. -/
theorem Stream.Alike.undone {s t v w x : Stream lexer} {b : Bookmark} (hst : Alike text s t)
    (hvw : Alike text v w) (hx : x.cursor = v.cursor.goTo b) (hr : x.Reachable text) :
    Alike text (x.returnTo s.checkpoint) (w.returnTo t.checkpoint) := by
  have hback : Alike text (v.returnTo s.checkpoint) (w.returnTo t.checkpoint) :=
    Coupling.back hvw hst
  have hcursor : x.cursor.goTo s.bookmark = v.cursor.goTo s.bookmark := by
    rw [hx, Cursor.goTo_goTo]
  exact ⟨⟨hcursor.trans hback.view.cursor, rfl, hback.view.lastEnd⟩, .back hr hst.left, hback.right⟩

/-- The stream has looked at its next token, which starts here. -/
def Stream.Shown (text : String) (start : Position) (s : Stream lexer) : Prop :=
  ∃ seen, position s = .ok start seen ∧ Alike text seen s

theorem Stream.Shown.alike {start : Position} {s t : Stream lexer} (h : Shown text start s)
    (hst : Alike text s t) : Shown text start t := by
  obtain ⟨seen, hseen, hE⟩ := h
  obtain ⟨hv, hE'⟩ := pullMirrors_position s t hst
  rw [hseen] at hv hE'
  cases hp : position t with
  | error e t' => rw [hp] at hv; cases hv
  | ok p t' => rw [hp] at hv hE'; cases hv; exact ⟨t', hp, hE'.symm.trans (hE.trans hst)⟩

theorem shown_of_position {start : Position} {s s' : Stream lexer} (hs : s'.Reachable text)
    (h : Parse.position s = .ok start s') : Shown text start s' :=
  ⟨s', (position_cases (position_of_parse h)).2, .refl hs⟩

/-! ## Forward only -/

/-- The operation does not end before the place where it began. -/
def Forward (text : String) {α : Type} (x : Parse lexer α) : Prop :=
  ∀ s, s.Reachable text → s.offset ≤ (stateOf (x s)).offset

theorem Forward.of_keeps {α : Type} {x : Parse lexer α}
    (h : ∀ least, Keeps (Beyond text least) x) : Forward text x :=
  fun s hs => (h s.offset s ⟨hs, Nat.le_refl _⟩).1.le

theorem forward_body (g : Grammar) (levels : Nat) (shape : Shape) :
    Forward text (shape.body g (Segment.runWithin g levels) : Parse lexer Outcome) :=
  .of_keeps fun _ => keeps_body (Segment.keeps_runWithin g levels) g shape

/-! ## One attempt in place of two -/

section

variable {body body' : Parse lexer Outcome} {outer inner : Options} {start : Position}
  {s t u v w : Stream lexer} {o : Outcome}

/-- The inner attempt begins in the same place, one level deeper. -/
theorem attempt_of_shown (hs : s.Reachable text) (hstart : Shown text start s) :
    ∃ u, Alike text u s ∧
      attempt inner body (s.atDepth (s.depth + 1)) = settled inner start body u := by
  have hself : Alike text s s := .refl hs
  obtain ⟨seen, hseen, hE⟩ := hstart.alike (hself.nest_right (s.depth + 1))
  have hseen' : Alike text seen s := hE.trans (hself.nest_right _).symm
  exact ⟨_, (hseen'.symm.note_right _).symm, by rw [attempt_apply, hseen]⟩

/-- A match has the span that the inner attempt gave it. -/
theorem meets_settled_match (hst : Alike text s t) (hus : Alike text u s) (hvw : Alike text v w)
    (hr : body u = .ok o v) (hr' : body' t = .ok o w) (hm : o.isMatch = true)
    (hinner : attempt inner body (s.atDepth (s.depth + 1)) = settled inner start body u) :
    Meets (Alike text) P (settled outer start (Parse.deeper (attempt inner body)) s)
      (settled (outer.over inner) start body' t) := by
  have hdeeper := deeper_apply (attempt inner body) s
  rw [hinner, settled_of_match hr hm] at hdeeper
  rw [settled_of_match hdeeper rfl, settled_of_match hr' hm, ← hus.view.offset_eq,
    show (v.atDepth (v.depth - 1)).offset = v.offset from rfl,
    show (v.atDepth (v.depth - 1)).lastEnd = v.lastEnd from rfl,
    Outcome.settleMatch_settleMatch, (hus.trans hst).view.offset_eq, hvw.view.offset_eq,
    hvw.view.lastEnd]
  exact .ok _ ⟨⟨hvw.view.cursor, hvw.view.buffered, hvw.view.lastEnd⟩, .nest hvw.left _, hvw.right⟩

/-- What the inner attempt has settled is put back already, and is settled again as it is. -/
theorem meets_settled_failure (hst : Alike text s t) (hus : Alike text u s) (hvw : Alike text v w)
    (hr : body u = .ok o v) (hr' : body' t = .ok o w) (hm : o.isMatch = false)
    (hle : u.offset ≤ v.offset)
    (hinner : attempt inner body (s.atDepth (s.depth + 1)) = settled inner start body u) :
    Meets (Alike text) P (settled outer start (Parse.deeper (attempt inner body)) s)
      (settled (outer.over inner) start body' t) := by
  obtain ⟨f, e, hf, hset⟩ : ∃ f e, _ ∧ settled inner start body u = _ := settled_of_failure hr hm
  have hdeeper := deeper_apply (attempt inner body) s
  rw [hinner, hset] at hdeeper
  obtain ⟨f₁, e₁, hf₁, hset₁⟩ : ∃ f e, _ ∧
      settled outer start (Parse.deeper (attempt inner body)) s = _ :=
    settled_of_failure hdeeper rfl
  obtain ⟨f₂, e₂, hf₂, hset₂⟩ : ∃ f e, _ ∧ settled (outer.over inner) start body' t = _ :=
    settled_of_failure hr' hm
  cases hf₁
  cases hf₂.symm.trans hf
  have hreached : u.offset ≤ max f.reached v.offset := Nat.le_trans hle (Nat.le_max_right _ _)
  have hagain : (o.settleFailure f u.offset v.offset).settleFailure
      { f with reached := max f.reached v.offset } u.offset u.offset =
      o.settleFailure f u.offset v.offset := Outcome.settleFailure_of_le rfl hreached rfl
  have hback : Reachable text ((v.returnTo u.checkpoint).record e) :=
    .note (.back hvw.left hus.left) e
  have hundone : Alike text
      ((((v.returnTo u.checkpoint).record e).atDepth (v.depth - 1)).returnTo s.checkpoint)
      (w.returnTo t.checkpoint) := hst.undone hvw rfl (hback.nest _)
  rw [hset₁, hset₂, ← hus.view.offset_eq, ← (hus.trans hst).view.offset_eq, ← hvw.view.offset_eq]
  exact hagain ▸ .ok _ (((hundone.note_right e₂).symm.note_right e₁).symm)

theorem meets_settled_settled (h : Mirrors (Alike text) P body body')
    (hforward : Forward text body) (hst : Alike text s t) (hstart : Shown text start s) :
    Meets (Alike text) P (settled outer start (Parse.deeper (attempt inner body)) s)
      (settled (outer.over inner) start body' t) := by
  obtain ⟨u, hus, hinner⟩ : ∃ u, Alike text u s ∧
      attempt inner body (s.atDepth (s.depth + 1)) = settled inner start body u :=
    attempt_of_shown hst.left hstart
  have hbody := h u t (hus.trans hst)
  have hle := hforward u hus.left
  generalize hr : body u = r at hbody hle
  generalize hr' : body' t = r' at hbody
  cases hbody with
  | @error e v w hvw =>
    have hdeeper := deeper_apply (attempt inner body) s
    rw [hinner, settled, hr] at hdeeper
    rw [settled, hdeeper, settled, hr']
    exact .error e (hst.undone hvw rfl (.nest (.back hvw.left hus.left) _))
  | stopped r hP =>
    have hdeeper := deeper_apply (attempt inner body) s
    rw [hinner, settled, hr] at hdeeper
    rw [settled, hdeeper]
    exact .stopped _ hP
  | @ok o v w hvw =>
    cases hm : o.isMatch with
    | true => exact meets_settled_match hst hus hvw hr hr' hm hinner
    | false => exact meets_settled_failure hst hus hvw hr hr' hm hle hinner

end

/-- Attempts are compared from where they have looked at their first token. -/
theorem meets_attempt_of {options options' : Options} {body body' : Parse lexer Outcome}
    {s t : Stream lexer} (hE : Meets (Alike text) P (Parse.position s) (Parse.position t))
    (h : ∀ start s t, Alike text s t → Shown text start s →
      Meets (Alike text) P (settled options start body s) (settled options' start body' t)) :
    Meets (Alike text) P (attempt options body s) (attempt options' body' t) := by
  refine hE.bind fun start s' t' hs _ h' => ?_
  have hself : Alike text s' s' := .refl h'.left
  exact h start _ _ ((h'.symm.note_right _).symm.note_right _)
    ((shown_of_position h'.left hs).alike (hself.note_right _))

/-- Two attempts, the one inside the other, do what a single one does. -/
theorem meets_attempt_attempt {body body' : Parse lexer Outcome}
    (h : Mirrors (Alike text) P body body') (hforward : Forward text body)
    (outer inner : Options) {s t : Stream lexer}
    (hE : Meets (Alike text) P (Parse.position s) (Parse.position t)) :
    Meets (Alike text) P (attempt outer (Parse.deeper (attempt inner body)) s)
      (attempt (outer.over inner) body' t) :=
  meets_attempt_of hE fun _ _ _ => meets_settled_settled h hforward

end Descent
