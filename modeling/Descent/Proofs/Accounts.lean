import Descent.Proofs.Backtracking
import Descent.Proofs.Honesty
import Descent.Proofs.Sights
import Mathlib.Data.List.Forall2

/-!
# What the log of a run accounts for

`Told` says what the log of an operation knows about the state that it ends in: every state on the
way was no further ahead, or lies in what was dropped since, and nothing was dropped that had not
been read. A failure is `Settled` where the stream stands if the log has the shape that is to blame
for it, at the very offset that the failure says it reached.

* `told_single`, `told_script`: shapes without parts, and scripts.
* `Told.trans`: two operations in a row.
-/
namespace Descent

open Descent.Stream

variable {lexer : Lexer} {α : Type}

/-! ## Looks that move nothing -/

/-- A look does not move the stream. -/
def Rested (s : Stream lexer) : Prop := (stateOf (peek s)).offset = s.offset

theorem rested_of_peek {s s' : Stream lexer} {found : Option Token} (h : peek s = .ok found s') :
    Rested s' := by
  unfold Rested
  rw [peek_again h]
  rfl

theorem peek_of_parse {s s' : Stream lexer} {found : Option Token}
    (h : Parse.peek s = .ok found s') : peek s = .ok found s' := by
  unfold Parse.peek Parse.ofPull at h
  split at h
  · next hp => cases h; exact hp
  · cases h

theorem next_of_parse {s s' : Stream lexer} {found : Option Token}
    (h : Parse.next s = .ok found s') : next s = .ok found s' := by
  unfold Parse.next Parse.ofPull at h
  split at h
  · next hp => cases h; exact hp
  · cases h

theorem Rested.of_standsAt {s t : Stream lexer} {c : Cursor} (h : Rested s) (hs : s.StandsAt c)
    (ht : t.StandsAt c) : Rested t := by
  unfold Rested at *
  rw [hs.offset_eq] at h
  rw [ht.offset_eq]
  rcases peek_cases hs with ⟨a, s', hf, -⟩ | ⟨hf, hp⟩ | ⟨e, hf, hp⟩ <;>
    rcases peek_cases ht with ⟨b, t', hf', hp', hsame⟩ | ⟨hf', hp'⟩ | ⟨e', hf', hp'⟩ <;>
    rw [hf] at hf' <;> cases hf'
  · rw [hp']
    exact (hsame.symm.standsAt (standsAt_holding hf)).offset_eq
  · rw [hp] at h
    rw [hp']
    exact h
  · rw [hp] at h
    rw [hp']
    exact h

/-! ## Logs -/

variable (text : String) (allowed : Script → Prop)

/-- The state was really come to, and the shape really fails there. -/
def Sight.Genuine : Sight lexer → Prop
  | .stood s => s.Reachable text
  | .missed origin s f =>
    s.Reachable text ∧
      (origin.Primitive ∧ Stream.position s = .ok f.position s ∨
        ∃ request parts, origin = .script request parts ∧ allowed request)
  | .dropped _ => True

/-- What lies up to this offset is behind the stream, or was dropped. -/
def Covered (l : List (Sight lexer)) (s : Stream lexer) (n : Nat) : Prop :=
  n ≤ s.offset ∨ ∃ r, .dropped r ∈ l ∧ n ≤ r

/-- What the log of an operation knows when it leads from `s` to `s'`. -/
structure Told (s s' : Stream lexer) (l : List (Sight lexer)) : Prop where
  reachable : s'.Reachable text
  start : Covered l s' s.offset
  covered : ∀ t, .stood t ∈ l → Covered l s' t.offset
  dropped : ∀ r, .dropped r ∈ l → ∃ t, .stood t ∈ l ∧ t.offset = r
  missed : ∀ origin t f, .missed origin t f ∈ l → .stood t ∈ l
  genuine : ∀ x ∈ l, x.Genuine text allowed

/-- A shape that failed at this offset is to blame for the failure. -/
def Blamed (l : List (Sight lexer)) (f : Failure) (n : Nat) : Prop :=
  ∃ origin t f', .missed origin t f' ∈ l ∧ t.offset = n ∧ f'.message = f.message ∧
    f'.position = f.position

/-- The stream is not ahead of where the failure came to, and what was read up to there was
dropped. -/
def Settled (s : Stream lexer) (l : List (Sight lexer)) (o : Outcome) : Prop :=
  ∀ f, o.verdict = .failed f → s.offset ≤ f.reached ∧ .dropped f.reached ∈ l ∧ Blamed l f f.reached

variable {text allowed} {s s₁ s' t : Stream lexer} {l l₁ l₂ : List (Sight lexer)} {o : Outcome}

theorem Covered.mono {n : Nat} (h : Covered l s n) (hl : l ⊆ l₁) : Covered l₁ s n :=
  h.imp_right fun ⟨r, hr, hn⟩ => ⟨r, hl hr, hn⟩

theorem Blamed.mono {f : Failure} {n : Nat} (h : Blamed l f n) (hl : l ⊆ l₁) : Blamed l₁ f n := by
  obtain ⟨origin, t, f', hm, h⟩ := h
  exact ⟨origin, t, f', hl hm, h⟩

theorem Settled.mono (h : Settled s l o) (hl : l ⊆ l₁) : Settled s l₁ o := fun f hf =>
  have ⟨hs, hd, hb⟩ := h f hf
  ⟨hs, hl hd, hb.mono hl⟩

/-- A failure stays settled while the stream does not move. -/
theorem Settled.congr (h : Settled s l o) (hs : t.offset = s.offset) : Settled t l o := fun f hf =>
  have ⟨hle, h⟩ := h f hf
  ⟨hs ▸ hle, h⟩

theorem told_nil (hs : s.Reachable text) : Told text allowed s s [] :=
  ⟨hs, Or.inl (Nat.le_refl _), nofun, nofun, nofun, nofun⟩

theorem told_stood (hs : s'.Reachable text) (hle : s.offset ≤ s'.offset) :
    Told text allowed s s' [.stood s'] where
  reachable := hs
  start := Or.inl hle
  covered t ht := by
    obtain rfl : t = s' := by simpa using ht
    exact Or.inl (Nat.le_refl _)
  dropped r hr := by simp at hr
  missed origin t f hm := by simp at hm
  genuine x hx := by
    obtain rfl := List.mem_singleton.1 hx
    exact hs

theorem told_missed {origin : Shape} {f : Failure}
    (h : (Sight.missed origin s f).Genuine text allowed) :
    Told text allowed s s [.stood s, .missed origin s f] where
  reachable := h.1
  start := Or.inl (Nat.le_refl _)
  covered t ht := by
    obtain rfl : t = s := by simpa using ht
    exact Or.inl (Nat.le_refl _)
  dropped r hr := by simp at hr
  missed origin' t f' hm := by
    obtain ⟨-, rfl, -⟩ : origin' = origin ∧ t = s ∧ f' = f := by simpa using hm
    exact List.mem_cons_self
  genuine x hx := by
    rcases List.mem_cons.1 hx with rfl | hx
    · exact h.1
    · obtain rfl := List.mem_singleton.1 hx
      exact h

/-- What is behind the stream in between is behind it at the end, or dropped. -/
theorem Told.trans (h₁ : Told text allowed s s₁ l₁) (h₂ : Told text allowed s₁ s' l₂) :
    Told text allowed s s' (l₁ ++ l₂) := by
  have hcover {n : Nat} (h : Covered l₁ s₁ n) : Covered (l₁ ++ l₂) s' n := by
    rcases h with hn | ⟨r, hr, hn⟩
    · rcases h₂.start with hs | ⟨r, hr, hs⟩
      · exact Or.inl (Nat.le_trans hn hs)
      · exact Or.inr ⟨r, List.mem_append_right _ hr, Nat.le_trans hn hs⟩
    · exact Or.inr ⟨r, List.mem_append_left _ hr, hn⟩
  refine ⟨h₂.reachable, hcover h₁.start, fun t ht => ?_, fun r hr => ?_, fun origin t f hm => ?_,
    fun x hx => (List.mem_append.1 hx).elim (h₁.genuine x) (h₂.genuine x)⟩
  · rcases List.mem_append.1 ht with ht | ht
    · exact hcover (h₁.covered t ht)
    · exact (h₂.covered t ht).mono (List.subset_append_right _ _)
  · rcases List.mem_append.1 hr with hr | hr
    · obtain ⟨t, ht, hr⟩ := h₁.dropped r hr
      exact ⟨t, List.mem_append_left _ ht, hr⟩
    · obtain ⟨t, ht, hr⟩ := h₂.dropped r hr
      exact ⟨t, List.mem_append_right _ ht, hr⟩
  · rcases List.mem_append.1 hm with hm | hm
    · exact List.mem_append_left _ (h₁.missed origin t f hm)
    · exact List.mem_append_right _ (h₂.missed origin t f hm)

/-- Only the offsets of the two states count. -/
theorem Told.congr (h : Told text allowed s s' l) (hs : s₁.offset = s.offset)
    (ht : t.Reachable text) (ht' : t.offset = s'.offset) : Told text allowed s₁ t l where
  reachable := ht
  start := by
    unfold Covered
    rw [hs, ht']
    exact h.start
  covered u hu := by
    unfold Covered
    rw [ht']
    exact h.covered u hu
  dropped := h.dropped
  missed := h.missed
  genuine := h.genuine

/-- One more state. -/
theorem Told.then_stood (h : Told text allowed s s₁ [.stood s₁]) (h₁ : Told text allowed s₁ s' l) :
    Told text allowed s s' (.stood s₁ :: l) := h.trans h₁

theorem Stream.Reachable.offset_le_of_peek (hs : s.Reachable text) {found : Option Token}
    (h : peek s = .ok found s') : s.offset ≤ s'.offset := by
  have hle := hs.offset_le_look
  rwa [h] at hle

theorem Stream.Reachable.offset_le_of_next (hs : s.Reachable text) {found : Option Token}
    (h : next s = .ok found s') : s.offset ≤ s'.offset := by
  have hle := hs.offset_le_take
  rwa [h] at hle

theorem told_peek (hs : s.Reachable text) {found : Option Token} (h : peek s = .ok found s') :
    Told text allowed s s' [.stood s'] := by
  have hlook := hs.look
  rw [h] at hlook
  exact told_stood hlook (hs.offset_le_of_peek h)

theorem told_next (hs : s.Reachable text) {found : Option Token} (h : next s = .ok found s') :
    Told text allowed s s' [.stood s'] := by
  have htake := hs.take
  rw [h] at htake
  exact told_stood htake (hs.offset_le_of_next h)

/-! ## Shapes without parts -/

/-- How the body of a shape without parts ends: with a match, here or behind the next token, or with
a failure of its own at the next token. -/
def SingleEnd (shape : Shape) (s : Stream lexer) (o : Outcome) (s' : Stream lexer) : Prop :=
  ∃ found seen, peek s = .ok found seen ∧
    (o.isMatch = true ∧ (s' = seen ∨ ∃ t, next seen = .ok t s') ∨
      shape.Primitive ∧ s' = seen ∧
        ∃ p message, o = .failure p message ∧ Stream.position s' = .ok p s')

theorem singleEnd_tokenBody {shape : Shape} (hshape : shape.Primitive) {accepts : Token → Bool}
    {outcome : Token → Outcome} {expected : String} (ho : ∀ t, (outcome t).isMatch = true)
    (h : tokenBody accepts outcome expected s = .ok o s') : SingleEnd shape s o s' := by
  unfold tokenBody at h
  obtain ⟨start, seen, hp, h⟩ := ok_of_bind h
  obtain ⟨⟨found, hpeek⟩, hstart⟩ := position_cases (position_of_parse hp)
  have hlook : Parse.peek seen = .ok found seen := by
    rw [Parse.peek, Parse.ofPull, peek_again hpeek]
  simp only [bind_apply, hlook] at h
  refine ⟨found, seen, hpeek, ?_⟩
  cases found with
  | none => cases h; exact Or.inr ⟨hshape, rfl, _, _, rfl, hstart⟩
  | some token =>
    simp only at h
    split at h
    · obtain ⟨t, after, hn, h⟩ := ok_of_bind h
      cases h
      exact Or.inl ⟨ho token, Or.inr ⟨t, next_of_parse hn⟩⟩
    · cases h; exact Or.inr ⟨hshape, rfl, _, _, rfl, hstart⟩

theorem singleEnd_failure {shape : Shape} (hshape : shape.Primitive) {message : String}
    (h : (do return .failure (← Parse.position) message : Parse lexer Outcome) s = .ok o s') :
    SingleEnd shape s o s' := by
  obtain ⟨start, seen, hp, h⟩ := ok_of_bind h
  cases h
  obtain ⟨⟨found, hpeek⟩, hstart⟩ := position_cases (position_of_parse hp)
  exact ⟨found, _, hpeek, Or.inr ⟨hshape, rfl, _, _, rfl, hstart⟩⟩

theorem singleEnd_possiblyBody {kind expected : String}
    (h : possiblyBody kind expected s = .ok o s') :
    SingleEnd (.possibly kind expected) s o s' := by
  unfold possiblyBody at h
  obtain ⟨found, seen, hp, h⟩ := ok_of_bind h
  refine ⟨found, seen, peek_of_parse hp, Or.inl ?_⟩
  split at h
  · obtain ⟨t, after, hn, h⟩ := ok_of_bind h
    cases h
    exact ⟨rfl, Or.inr ⟨t, next_of_parse hn⟩⟩
  · cases h
    exact ⟨rfl, Or.inl rfl⟩

theorem singleEnd_body {shape : Shape} (hshape : shape.Single) {g : Grammar} {run : Runner lexer}
    (h : shape.body g run s = .ok o s') : SingleEnd shape s o s' := by
  cases shape with
  | exact | ofKind | leaf => exact singleEnd_tokenBody trivial (fun _ => rfl) h
  | possibly => exact singleEnd_possiblyBody h
  | fail => exact singleEnd_failure trivial h
  | choice alternatives =>
    cases alternatives with
    | nil => exact singleEnd_failure trivial h
    | cons => exact hshape.elim
  | _ => exact hshape.elim

theorem told_single {shape : Shape} (hs : s.Reachable text) (h : SingleEnd shape s o s') :
    Told text allowed s s' (.stood (stateOf (peek s)) :: missedIn shape (.ok o s')) ∧
      s.offset ≤ s'.offset ∧
      ∀ f, o.verdict = .failed f →
        f.reached = 0 ∧ Blamed (missedIn shape (.ok o s')) f s'.offset := by
  obtain ⟨found, seen, hpeek, hend⟩ := h
  have hseen : Told text allowed s seen [.stood seen] := told_peek hs hpeek
  have hle := hs.offset_le_of_peek hpeek
  rw [hpeek]
  rcases hend with ⟨ho, hs'⟩ | ⟨hshape, rfl, p, message, rfl, hp⟩
  · obtain ⟨verdict, key, nesting, progress⟩ := o
    cases verdict with
    | failed f => cases ho
    | matched data =>
      refine ⟨?_, ?_, nofun⟩
      · rcases hs' with rfl | ⟨t, hn⟩
        · exact hseen.then_stood (told_stood hseen.reachable (Nat.le_refl _))
        · exact hseen.then_stood (told_next hseen.reachable hn)
      · rcases hs' with rfl | ⟨t, hn⟩
        · exact hle
        · exact Nat.le_trans hle (hseen.reachable.offset_le_of_next hn)
  · have hmissed : (Sight.missed shape s' ⟨some message, p, 0⟩).Genuine text allowed :=
      ⟨hseen.reachable, Or.inl ⟨hshape, hp⟩⟩
    refine ⟨?_, hle, ?_⟩
    · exact hseen.then_stood (told_missed hmissed)
    · rintro f ⟨⟩
      exact ⟨rfl, shape, s', _, List.mem_cons_of_mem _ (List.mem_singleton.2 rfl), rfl, rfl, rfl⟩

/-! ## Runs -/

/-- What a run of a segment says about itself. -/
structure Reported (text : String) (allowed : Script → Prop) (s s' : Stream lexer)
    (l : List (Sight lexer)) (o : Outcome) : Prop where
  told : Told text allowed s s' l
  le : s.offset ≤ s'.offset
  settled : Settled s' l o
  /-- A failure leaves the stream where a look at the first token leads to. -/
  undone : o.isMatch = false → s'.offset = (stateOf (peek s)).offset ∧ Rested s'
  progress_eq : o.isMatch = false → o.progress = o.reached - s'.offset

/-- Whenever the operation ends, its log accounts for it. -/
def Recounts (text : String) (allowed : Script → Prop) (x : Parse lexer Outcome)
    (watch : Stream lexer → List (Sight lexer)) : Prop :=
  ∀ (s s' : Stream lexer) o, s.Reachable text → x s = .ok o s' →
    Reported text allowed s s' (watch s) o

theorem reported_success (hs : s.Reachable text) :
    Reported text allowed s s [] .success :=
  ⟨told_nil hs, Nat.le_refl _, nofun, nofun, nofun⟩

theorem recounts_getD {runs : List (Parse lexer Outcome)}
    {watches : List (Stream lexer → List (Sight lexer))}
    (h : List.Forall₂ (Recounts text allowed) runs watches) (i : Nat) :
    Recounts text allowed (runs.getD i (pure .success)) (watches.getD i fun _ => []) := by
  induction h generalizing i with
  | nil =>
    intro s s' o hs ho
    cases ho
    exact reported_success hs
  | cons h _ ih =>
    cases i with
    | zero => exact h
    | succ i => exact ih i

/-! ## Scripts -/

/-- The script passes on the errors of segments. A failure that it finishes with does not claim to
have come anywhere, as it is for the segment to say how far it came; or it is a failure of `held`,
or of a segment that the script has run. -/
def Script.PlainWith (held : Outcome → Prop) : Script → Prop
  | finish o => held o ∨ ∀ f, o.verdict = .failed f → f.reached = 0
  | abort _ => True
  | peek answer => ∀ a, (answer a).PlainWith held
  | next answer => ∀ a, (answer a).PlainWith held
  | position answer => ∀ a, (answer a).PlainWith held
  | offset answer => ∀ a, (answer a).PlainWith held
  | lastEnd answer => ∀ a, (answer a).PlainWith held
  | depth answer => ∀ a, (answer a).PlainWith held
  | .text answer => ∀ a, (answer a).PlainWith held
  | save following => following.PlainWith held
  | restore _ following => following.PlainWith held
  | unmoved _ answer => ∀ a, (answer a).PlainWith held
  | call _ answer =>
    (∀ e, answer (.error e) = .abort e) ∧
      ∀ o, (answer (.ok o)).PlainWith fun o' => held o' ∨ o' = o
  | limit answer => ∀ a, (answer a).PlainWith held

/-- The script makes up nothing about how far failures came. -/
def Script.Plain (script : Script) : Prop := script.PlainWith fun _ => False

/-- A request that reads tokens is always answered. -/
theorem ok_of_answerOf {x : Pull lexer α} {f : Except ReadError α → Parse lexer Outcome}
    (h : (answerOf x >>= f) s = .ok o s') :
    ∃ a, answerOf x s = .ok a (stateOf (x s)) ∧ f a (stateOf (x s)) = .ok o s' := by
  rw [bind_apply] at h
  unfold answerOf at h ⊢
  cases hx : x s <;> rw [hx] at h <;> exact ⟨_, rfl, h⟩

theorem restore_apply (slot : Nat) (following : Script) (depthLimit : Nat)
    (runs : List (Parse lexer Outcome)) (saved : List Checkpoint) (s : Stream lexer) :
    (Script.restore slot following).run depthLimit runs saved s =
      following.run depthLimit runs saved (match saved[slot]? with
        | some c => s.returnTo c
        | none => s) := by
  simp only [Script.run]
  cases saved[slot]? <;> rfl

/-- The run of a segment is answered unless it has no end. -/
theorem ok_of_outcomeOf {x : Parse lexer Outcome}
    {f : Except ParseError Outcome → Parse lexer Outcome}
    (h : (outcomeOf x >>= f) s = .ok o s') :
    ∃ a t, outcomeOf x s = .ok a t ∧ f a t = .ok o s' ∧
      ∀ o₁, a = .ok o₁ → x s = .ok o₁ t := by
  rw [bind_apply] at h
  unfold outcomeOf at h ⊢
  cases hx : x s with
  | ok o₁ t =>
    rw [hx] at h
    exact ⟨_, t, rfl, h, fun o₂ ho => by rw [Except.ok.inj ho]⟩
  | error e t =>
    rw [hx] at h
    cases e with
    | error e => exact ⟨_, t, rfl, h, nofun⟩
    | endless => cases h

theorem told_restored {c : Checkpoint} (hs : s.Reachable text)
    (hc : ∃ t : Stream lexer, t.Reachable text ∧ t.checkpoint = c) :
    Told text allowed s (s.returnTo c) [.stood s, .dropped s.offset, .stood (s.returnTo c)] := by
  obtain ⟨u, hu, rfl⟩ := hc
  have hback : (s.returnTo u.checkpoint).Reachable text := .back hs hu
  refine ⟨hback, Or.inr ⟨s.offset, by simp, Nat.le_refl _⟩, fun t ht => ?_, fun r hr => ?_,
    fun _ _ _ hm => by simp at hm, fun x hx => ?_⟩
  · simp only [List.mem_cons, Sight.stood.injEq, reduceCtorEq, List.not_mem_nil, or_false,
      false_or] at ht
    rcases ht with rfl | rfl
    · exact Or.inr ⟨t.offset, by simp, Nat.le_refl _⟩
    · exact Or.inl (Nat.le_refl _)
  · obtain rfl : r = s.offset := by simpa using hr
    exact ⟨s, by simp, rfl⟩
  · simp only [List.mem_cons, List.not_mem_nil, or_false] at hx
    rcases hx with rfl | rfl | rfl
    · exact hs
    · trivial
    · exact hback

/-- What a script that began with the log `l₀` behind it has to say for itself. -/
structure Scripted (text : String) (allowed : Script → Prop) (least : Nat)
    (l₀ : List (Sight lexer)) (s s' : Stream lexer) (l : List (Sight lexer)) (o : Outcome) :
    Prop where
  told : Told text allowed s s' l
  le : least ≤ s'.offset
  blamed : ∀ f, o.verdict = .failed f → f.reached = 0 ∨ Blamed (l₀ ++ l) f f.reached

theorem Scripted.behind {least : Nat} {l₀ : List (Sight lexer)}
    (h : Scripted text allowed least (l₀ ++ l₁) s₁ s' l₂ o) (h₁ : Told text allowed s s₁ l₁) :
    Scripted text allowed least l₀ s s' (l₁ ++ l₂) o where
  told := h₁.trans h.told
  le := h.le
  blamed := by
    rw [← List.append_assoc]
    exact h.blamed

/-- The failures that a script holds on to have something to blame. -/
def Traced (l : List (Sight lexer)) (held : Outcome → Prop) : Prop :=
  ∀ o, held o → ∀ f, o.verdict = .failed f → Blamed l f f.reached

theorem Traced.append {held : Outcome → Prop} (h : Traced l held) (l₁ : List (Sight lexer)) :
    Traced (l ++ l₁) held :=
  fun o ho f hf => (h o ho f hf).mono (List.subset_append_left _ _)

section

variable {runs : List (Parse lexer Outcome)} {watches : List (Stream lexer → List (Sight lexer))}
  (hruns : List.Forall₂ (Recounts text allowed) runs watches) {depthLimit : Nat}
include hruns

/-- A script accounts for what it has read, and for the failures that it has from segments. -/
theorem scripted_run {request : Script} {held : Outcome → Prop}
    (hplain : request.PlainWith held) {l₀ : List (Sight lexer)} (hheld : Traced l₀ held)
    {least : Nat} {saved : List Checkpoint}
    (hsaved : ∀ c ∈ saved, ∃ t : Stream lexer,
      t.Reachable text ∧ t.checkpoint = c ∧ least ≤ t.offset)
    (hs : s.Reachable text) (hle : least ≤ s.offset)
    (h : request.run depthLimit runs saved s = .ok o s') :
    Scripted text allowed least l₀ s s' (request.sights depthLimit runs watches saved s) o := by
  induction request generalizing held l₀ saved s with
  | finish o =>
    cases h
    refine ⟨told_nil hs, hle, fun f hf => ?_⟩
    rcases hplain with ho | hzero
    · exact Or.inr ((hheld o ho f hf).mono (List.subset_append_left _ _))
    · exact Or.inl (hzero f hf)
  | abort e => cases h
  | peek answer ih =>
    obtain ⟨a, ha, h⟩ := ok_of_answerOf h
    rw [Script.sights, ha]
    exact (ih a (hplain a) (hheld.append _) hsaved hs.look
      (Nat.le_trans hle hs.offset_le_look) h).behind (told_stood hs.look hs.offset_le_look)
  | next answer ih =>
    obtain ⟨a, ha, h⟩ := ok_of_answerOf h
    rw [Script.sights, ha]
    exact (ih a (hplain a) (hheld.append _) hsaved hs.take
      (Nat.le_trans hle hs.offset_le_take) h).behind (told_stood hs.take hs.offset_le_take)
  | position answer ih =>
    obtain ⟨a, ha, h⟩ := ok_of_answerOf h
    rw [stateOf_position] at ha h
    rw [Script.sights, ha]
    exact (ih a (hplain a) (hheld.append _) hsaved hs.look
      (Nat.le_trans hle hs.offset_le_look) h).behind (told_stood hs.look hs.offset_le_look)
  | offset answer ih | lastEnd answer ih | depth answer ih | text answer ih
  | unmoved slot answer ih | limit answer ih => exact ih _ (hplain _) hheld hsaved hs hle h
  | save following ih =>
    refine ih hplain hheld (fun c hc => ?_) hs hle h
    rcases List.mem_cons.1 hc with rfl | hc
    · exact ⟨s, hs, rfl, hle⟩
    · exact hsaved c hc
  | restore slot following ih =>
    rw [restore_apply] at h
    rw [Script.sights]
    cases hslot : saved[slot]? with
    | none =>
      rw [hslot] at h
      exact ih hplain hheld hsaved hs hle h
    | some c =>
      rw [hslot] at h
      obtain ⟨t, ht, rfl, htle⟩ := hsaved c (List.mem_of_getElem? hslot)
      have hback : Told text allowed s (s.returnTo t.checkpoint) _ := told_restored hs ⟨t, ht, rfl⟩
      exact (ih hplain (hheld.append _) hsaved hback.reachable htle h).behind hback
  | call part answer ih =>
    obtain ⟨a, t, ha, h, hrun⟩ := ok_of_outcomeOf h
    rw [Script.sights, ha]
    cases a with
    | error e =>
      simp only [hplain.1 e] at h
      cases h
    | ok o₁ =>
      have hrep := recounts_getD hruns part s t o₁ hs (hrun o₁ rfl)
      refine (ih (.ok o₁) (hplain.2 o₁) (fun o' ho' f hf => ?_) hsaved hrep.told.reachable
        (Nat.le_trans hle hrep.le) h).behind hrep.told
      rcases ho' with ho' | rfl
      · exact hheld.append _ o' ho' f hf
      · exact (hrep.settled f hf).2.2.mono (List.subset_append_right _ _)

theorem told_script {request : Script} {parts : List Segment} (hallowed : allowed request)
    (hplain : request.Plain) (hs : s.Reachable text)
    (h : request.run depthLimit runs [] s = .ok o s') :
    Told text allowed s s' (request.sights depthLimit runs watches [] s ++
        missedIn (.script request parts) (.ok o s')) ∧
      s.offset ≤ s'.offset ∧
      ∀ f, o.verdict = .failed f →
        Blamed (request.sights depthLimit runs watches [] s ++
          missedIn (.script request parts) (.ok o s')) f (max f.reached s'.offset) := by
  have hnone : Traced ([] : List (Sight lexer)) fun _ => False := fun _ h => h.elim
  obtain ⟨htold, hle, hfail⟩ := scripted_run hruns hplain hnone (by simp) hs (Nat.le_refl _) h
  refine ⟨htold.trans ?_, hle, fun f hf => ?_⟩
  · obtain ⟨verdict, key, nesting, progress⟩ := o
    cases verdict with
    | matched data => exact told_stood htold.reachable (Nat.le_refl _)
    | failed f => exact told_missed ⟨htold.reachable, Or.inr ⟨request, parts, rfl, hallowed⟩⟩
  · -- Either the script failed here, or a segment that it has run came further.
    have hhere : Blamed (missedIn (.script request parts) (.ok o s')) f s'.offset := by
      simp only [missedIn, followedBy, behind, hf]
      exact ⟨.script request parts, s', f, List.mem_cons_of_mem _ (List.mem_singleton.2 rfl), rfl,
        rfl, rfl⟩
    rcases Nat.le_total f.reached s'.offset with hle | hle
    · rw [Nat.max_eq_right hle]
      exact hhere.mono (List.subset_append_right _ _)
    · rw [Nat.max_eq_left hle]
      rcases hfail f hf with hzero | hblamed
      · obtain hend : s'.offset = f.reached := by omega
        exact (hend ▸ hhere).mono (List.subset_append_right _ _)
      · exact hblamed.mono (List.subset_append_left _ _)

end

end Descent
