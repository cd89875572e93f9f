import Descent.Proofs.Mirroring

/-!
# One way to run against another

An operation follows another one if it does the same from every state, unless it ends the parse for
one of some named reasons. The two then mirror each other from one and the same stream, so what is
built from operations that follow others follows what is built from those.

* `Follows.mirrors`, `Follows.of_mirrors`: following as mirroring.
* `Follows.bind`: operations in a row.
* `follows_attempt`: a segment, whatever its body follows.
* `follows_body`: what a shape does, with two ways to run the segments inside and two grammars that
  have the same rules.
* `follows_parse`: a whole parse.
-/
namespace Descent

open Descent.Stream

variable {lexer : Lexer} {α β : Type} {I : Stream lexer → Prop} {P : Stop → Prop}

/-- Among the states of `I`, which it does not leave, `x` does what `y` does unless it ends for a
reason of `P`. -/
structure Follows (I : Stream lexer → Prop) (P : Stop → Prop) (x y : Parse lexer α) : Prop where
  keeps : Keeps I x
  agrees : ∀ s, I s → x s = y s ∨ ∃ e s', x s = .error e s' ∧ P e

/-! ## Two runs from one stream -/

/-- The streams are one and the same, a state of `I`. -/
structure Stream.Agreeing (I : Stream lexer → Prop) (s t : Stream lexer) : Prop where
  eq : s = t
  holds : I s

instance [Steady I] : Coupling (Agreeing I) where
  view h := h.eq ▸ ⟨rfl, rfl, rfl⟩
  look h := ⟨by rw [h.eq], Steady.look h.holds⟩
  take h := ⟨by rw [h.eq], Steady.take h.holds⟩
  back h h' := ⟨by rw [h.eq, h'.eq], Steady.back h.holds h'.holds⟩
  enter h label p := ⟨by rw [h.eq], Steady.enter h.holds label p⟩
  remark h h' _ he := ⟨by rw [h.eq, h'.eq], Steady.remark h.holds (he _)⟩

instance [Closed I] : DeepCoupling (Agreeing I) where
  nest h := ⟨by rw [h.eq], Closed.nest h.holds _⟩
  leave h := ⟨by rw [h.eq], Closed.nest h.holds _⟩

theorem Follows.mirrors {x y : Parse lexer α} (h : Follows I P x y) :
    Mirrors (Agreeing I) P x y := by
  rintro s t ⟨rfl, hs⟩
  have hI := (h.keeps s hs).1
  rcases h.agrees s hs with he | ⟨e, s', he, hP⟩
  · rw [← he]
    cases hr : x s with
    | ok a s' => rw [hr] at hI; exact .ok a ⟨rfl, hI⟩
    | error e s' => rw [hr] at hI; exact .error e ⟨rfl, hI⟩
  · rw [he]
    exact .stopped _ hP

theorem Follows.of_mirrors {x y : Parse lexer α} (hk : Keeps I x)
    (h : Mirrors (Agreeing I) P x y) : Follows I P x y := by
  refine ⟨hk, fun s hs => ?_⟩
  have hm := h s s ⟨rfl, hs⟩
  generalize x s = r at hm
  generalize y s = r' at hm
  cases hm with
  | ok a h => exact .inl (by rw [h.eq])
  | error e h => exact .inl (by rw [h.eq])
  | stopped _ h => exact .inr ⟨_, _, rfl, h⟩

/-! ## Operations -/

theorem Keeps.follows {x : Parse lexer α} (h : Keeps I x) : Follows I P x x :=
  ⟨h, fun _ _ => Or.inl rfl⟩

theorem Follows.bind {x y : Parse lexer α} {f g : α → Parse lexer β} (hx : Follows I P x y)
    (hf : ∀ a, Follows I P (f a) (g a)) : Follows I P (x >>= f) (y >>= g) :=
  .of_mirrors (keeps_bind hx.keeps fun a => (hf a).keeps)
    (hx.mirrors.bind fun a => (hf a).mirrors)

theorem follows_pure (a : α) : Follows I P (pure a : Parse lexer α) (pure a) :=
  (keeps_pure a).follows

theorem Keeps.bind_follows {x : Parse lexer α} {f g : α → Parse lexer β} (hx : Keeps I x)
    (hf : ∀ a, Follows I P (f a) (g a)) : Follows I P (x >>= f) (x >>= g) :=
  hx.follows.bind hf

theorem follows_deeper [Closed I] {x y : Parse lexer α} (h : Follows I P x y) :
    Follows I P (Parse.deeper x) (Parse.deeper y) :=
  .of_mirrors (keeps_deeper h.keeps) (mirrors_deeper h.mirrors)

variable [Steady I]

theorem follows_attempt (options : Options) {body body' : Parse lexer Outcome}
    (h : Follows I P body body') : Follows I P (attempt options body) (attempt options body') :=
  .of_mirrors (keeps_attempt options h.keeps) (mirrors_attempt options h.mirrors)

theorem follows_required {x y : Parse lexer Outcome} (h : Follows I P x y) :
    Follows I P (required x) (required y) :=
  .of_mirrors (keeps_required h.keeps) (mirrors_required h.mirrors)

/-! ## Segments and parses -/

/-- What a shape does with one way to run the segments inside follows what it does with the other,
if those ways follow one another where the segments of `Q` are concerned. -/
theorem follows_body {Q : Segment → Prop} {run run' : Runner lexer} (hkeeps : ∀ s, Keeps I (run s))
    (hrun : ∀ s, Q s → Follows I P (run s) (run' s)) {grammar grammar' : Grammar}
    (hfind : ∀ name, grammar.find? name = grammar'.find? name)
    (hrules : ∀ name rule, grammar.find? name = some rule → Q rule.toSegment) {shape : Shape}
    (hscript : shape.ScriptIn
      (Script.Forthright (fun e => P (.error e)) (grammar.maxDepth = grammar'.maxDepth)))
    (hparts : ∀ p ∈ shape.parts, Q p) :
    Follows I P (shape.body grammar run) (shape.body grammar' run') := by
  refine .of_mirrors (keeps_body hkeeps grammar shape) ?_
  have hdepth (s t : Stream lexer) (h : Agreeing I s t) : s.depth = t.depth := by rw [h.eq]
  exact mirrors_body_self hdepth (fun p hp => (hrun p hp).mirrors) hfind hrules hscript hparts

theorem follows_parse {grammar grammar' : Grammar}
    (hkeeps : ∀ rule : Rule, Keeps I (rule.run grammar : Parse lexer Outcome))
    (hfind : ∀ name, grammar.find? name = grammar'.find? name)
    (h : ∀ name rule, grammar.find? name = some rule →
      Follows I P (rule.run grammar) (rule.run grammar')) (root : String) :
    Follows I P (grammar.parse root) (grammar'.parse root) := by
  refine .of_mirrors (keeps_parse hkeeps root) ?_
  refine mirrors_parse (Q := fun r r' => r = r' ∧ Follows I P (r.run grammar) (r'.run grammar'))
    (fun name => rel_find? (hfind name) fun rule hrule => ⟨rfl, h name rule hrule⟩)
    (fun rule rule' hrule => ?_) root
  obtain ⟨rfl, hfollows⟩ := hrule
  exact ⟨rfl, hfollows.mirrors⟩

end Descent
