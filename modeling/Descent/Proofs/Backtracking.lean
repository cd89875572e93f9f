import Descent.Proofs.Balance

/-!
# What a failed attempt leaves behind

A segment looks at the next token before it saves the checkpoint that a failure returns to. So a
run without a match ends at the checkpoint that *looking* leads to. That is the checkpoint before
the run, unless the look itself moved the stream: over skipped text at the end, or up to text that
holds no token.

* `checkpoint_of_givesUp`: where a run without a match ends, whatever its body does.
* `checkpoint_peek_iff`: when a look leaves the checkpoint as it is.
* `checkpoint_of_givesUp_iff`: a run without a match restores the checkpoint exactly if the stream
  stood neither before skipped text at the end nor before text that holds no token.
* `answers_of_givesUp`: where a look succeeds, no later question to the stream tells that there was
  a run without a match.
-/
namespace Descent

open Descent.Stream

variable {lexer : Lexer}

/-- The run ended without a match, in the state `s'`: with a failure that another alternative may
mend, or with an error. -/
def GivesUp (r : EStateM.Result Stop (Stream lexer) Outcome) (s' : Stream lexer) : Prop :=
  (∃ o, r = .ok o s' ∧ o.isMatch = false) ∨ ∃ e, r = .error (.error e) s'

theorem GivesUp.stateOf_eq {r : EStateM.Result Stop (Stream lexer) Outcome} {s' : Stream lexer}
    (h : GivesUp r s') : stateOf r = s' := by
  rcases h with ⟨o, rfl, -⟩ | ⟨e, rfl⟩ <;> rfl

/-- Did the run end without a match? -/
def gaveUp : EStateM.Result Stop (Stream lexer) Outcome → Bool
  | .ok o _ => !o.isMatch
  | .error (.error _) _ => true
  | .error .endless _ => false

theorem givesUp_of_gaveUp {r : EStateM.Result Stop (Stream lexer) Outcome} (h : gaveUp r = true) :
    GivesUp r (stateOf r) := by
  unfold gaveUp at h
  split at h
  · exact Or.inl ⟨_, rfl, by simpa using h⟩
  · exact Or.inr ⟨_, rfl⟩
  · cases h

/-! ## Any body at all -/

/-- Inside of a segment, at the depth of its body, segments run as they do on their own. -/
theorem innerRun_eq_run (grammar : Grammar) (segment : Segment) {s t : Stream lexer}
    (h : t.depth = s.depth + 1) : innerRun grammar s segment t = segment.run grammar t := by
  rw [innerRun, Segment.run, h]

theorem position_apply (s : Stream lexer) :
    (Parse.position : Parse lexer Position) s =
      match Stream.position s with
      | .ok p s' => .ok p s'
      | .error e s' => .error (.error (.reading e)) s' := by
  unfold Parse.position Parse.ofPull
  cases Stream.position s <;> rfl

theorem position_of_parse {s s' : Stream lexer} {p : Position}
    (h : Parse.position s = .ok p s') : Stream.position s = .ok p s' := by
  rw [position_apply] at h
  split at h
  · next hp => cases h; exact hp
  · cases h

/-- A body is run in the state that the look at its first token leads to. -/
theorem attempt_apply (options : Options) (body : Parse lexer Outcome) (s : Stream lexer) :
    attempt options body s =
      match Stream.position s with
      | .ok p s' =>
        settled options p body
          (s'.record (.entered (options.label.getD "<segment>") s'.depth p))
      | .error e s' => .error (.error (.reading e)) s' := by
  rw [attempt_eq, bind_apply, position_apply]
  cases Stream.position s <;> rfl

/-- What is not settled as a match is undone. -/
theorem GivesUp.of_settled {options : Options} {p : Position} {body : Parse lexer Outcome}
    {before s' : Stream lexer} (h : GivesUp (settled options p body before) s') :
    ∃ behind, behind = stateOf (body before) ∧ Same s' (behind.returnTo before.checkpoint) := by
  have hs := h.stateOf_eq
  unfold settled at h hs
  cases hb : body before with
  | error e behind =>
    rw [hb] at hs
    exact ⟨behind, rfl, hs ▸ Same.refl _⟩
  | ok o behind =>
    rw [hb] at h hs
    simp only at h hs
    split at h
    · rcases h with ⟨o', he, hm⟩ | ⟨e, he⟩
      · cases he; simp [Outcome.settleMatch, Outcome.isMatch] at hm
      · cases he
    · next f hv =>
      rw [hv] at hs
      exact ⟨behind, rfl, hs ▸ ⟨rfl, rfl, rfl, rfl⟩⟩

theorem GivesUp.of_deeper {x : Parse lexer Outcome} {s s' : Stream lexer}
    (h : GivesUp (Parse.deeper x s) s') :
    ∃ behind, GivesUp (x (s.atDepth (s.depth + 1))) behind ∧
      s' = behind.atDepth (behind.depth - 1) := by
  rw [deeper_apply] at h
  cases hx : x (s.atDepth (s.depth + 1)) with
  | ok o behind =>
    rw [hx] at h
    rcases h with ⟨o', he, hm⟩ | ⟨e, he⟩
    · cases he; exact ⟨behind, Or.inl ⟨_, rfl, hm⟩, rfl⟩
    · cases he
  | error e behind =>
    rw [hx] at h
    rcases h with ⟨o', he, hm⟩ | ⟨e', he⟩
    · cases he
    · cases he; exact ⟨behind, Or.inr ⟨_, rfl⟩, rfl⟩

/-- A guarded run without a match ended before its body was run, or undid what the body did. In
either case it ended where the look at its first token led to. -/
theorem GivesUp.of_guarded {grammar : Grammar} {options : Options} {body : Parse lexer Outcome}
    {s s' : Stream lexer} (h : GivesUp (guarded grammar options body s) s') :
    ∃ seen, seen = stateOf (peek (s.atDepth (s.depth + 1))) ∧
      (s' = seen.atDepth (seen.depth - 1) ∨
        ∃ e behind, behind = stateOf (body (seen.record e)) ∧
          Same s' ((behind.returnTo seen.checkpoint).atDepth (behind.depth - 1))) := by
  refine ⟨_, rfl, ?_⟩
  rw [← stateOf_position]
  unfold guarded at h
  split at h
  · obtain ⟨s₁, h₁, rfl⟩ := h.of_deeper
    rw [attempt_apply] at h₁
    cases hp : Stream.position (s.atDepth (s.depth + 1)) with
    | error e seen => rw [hp] at h₁; left; rw [← h₁.stateOf_eq]; rfl
    | ok p seen =>
      rw [hp] at h₁
      obtain ⟨behind, hb, hs⟩ := h₁.of_settled
      refine Or.inr ⟨_, behind, hb, hs.cursor, hs.buffered, hs.lastEnd, ?_⟩
      rw [depth_atDepth, hs.depth]; rfl
  · obtain ⟨s₁, h₁, rfl⟩ := h.of_deeper
    left
    rw [← h₁.stateOf_eq, tooDeep, bind_apply, position_apply]
    cases Stream.position (s.atDepth (s.depth + 1)) <;> rfl

/-! ## The checkpoint -/

theorem peek_atDepth (s : Stream lexer) (d : Nat) :
    peek (s.atDepth d) =
      match peek s with
      | .ok a s' => .ok a (s'.atDepth d)
      | .error e s' => .error e (s'.atDepth d) := by
  obtain ⟨cursor, buffered, lastEnd, depth, journal⟩ := s
  cases buffered with
  | some b => rfl
  | none =>
    simp only [peek, atDepth]
    cases lexer.read cursor with
    | error e c => rfl
    | ok l c => cases l <;> rfl

theorem checkpoint_peek_atDepth (s : Stream lexer) (d : Nat) :
    (stateOf (peek (s.atDepth d))).checkpoint = (stateOf (peek s)).checkpoint := by
  rw [peek_atDepth]
  cases peek s <;> rfl

/-- A run without a match ends at the checkpoint that looking at the next token leads to. Its body
may be any operation at all. -/
theorem checkpoint_of_givesUp {grammar : Grammar} {options : Options} {body : Parse lexer Outcome}
    {s s' : Stream lexer} (h : GivesUp (guarded grammar options body s) s') :
    s'.checkpoint = (stateOf (peek s)).checkpoint := by
  obtain ⟨seen, rfl, rfl | ⟨p, behind, -, hs⟩⟩ := h.of_guarded
  · exact checkpoint_peek_atDepth s _
  · rw [← checkpoint_peek_atDepth s (s.depth + 1)]
    unfold checkpoint bookmark
    rw [hs.buffered, hs.cursor, hs.lastEnd]
    rfl

/-- Nothing but skipped text is left, and the stream has not passed over it. -/
def Stream.BeforeSkippedTail (s : Stream lexer) : Prop :=
  s.buffered = none ∧ s.cursor.atEnd = false ∧ lexer.found s.cursor = .ok none

/-- Behind skipped text, if there is any, no token can be read. -/
def Stream.BeforeUnreadable (s : Stream lexer) : Prop :=
  s.buffered = none ∧ ∃ e, lexer.found s.cursor = .error e

theorem checkpoint_passing_ne {s : Stream lexer}
    (hc : Cursor.Reaches 1 s.cursor (lexer.pass s.cursor)) (hb : s.buffered = none) :
    (s.passing s.cursor).checkpoint ≠ s.checkpoint := by
  intro he
  have h : (lexer.pass s.cursor).bookmark = s.bookmark := congrArg Checkpoint.bookmark he
  rw [(standsAt_cursor hb).bookmark_eq] at h
  exact hc.bookmark_ne h

/-- A look moves the stream if it passes over skipped text at the end, or if it meets text that
holds no token. -/
theorem checkpoint_peek_iff (s : Stream lexer) :
    (stateOf (peek s)).checkpoint = s.checkpoint ↔
      ¬ s.BeforeSkippedTail ∧ ¬ s.BeforeUnreadable := by
  cases hb : s.buffered with
  | some b =>
    rw [peek_of_buffered hb]
    simp [BeforeSkippedTail, BeforeUnreadable, hb, stateOf]
  | none =>
    have hat := standsAt_cursor hb
    unfold BeforeSkippedTail BeforeUnreadable
    rcases peek_cases hat with ⟨t, s', hf, hp, hs⟩ | ⟨hf, hp⟩ | ⟨e, hf, hp⟩ <;> rw [hp, hf]
    · have hc : s'.checkpoint = s.checkpoint := by
        unfold checkpoint
        rw [hs.lastEnd, (hs.symm.standsAt (standsAt_holding hf)).bookmark_eq, hat.bookmark_eq]
        rfl
      simp [stateOf, hc]
    · cases he : s.cursor.atEnd with
      | true =>
        have hc : (s.passing s.cursor).checkpoint = s.checkpoint := by
          unfold checkpoint
          rw [(standsAt_passing s s.cursor).bookmark_eq, hat.bookmark_eq, lexer.pass_of_atEnd he]
          rfl
        simp [stateOf, hc]
      | false =>
        -- The end of the text lies behind the skipped text, so the cursor has moved.
        have hr : Cursor.Reaches 1 s.cursor (lexer.pass s.cursor) := by
          obtain ⟨n, -, hn, hpass⟩ := lexer.reaches_pass s.cursor
          refine ⟨n, ?_, hn, hpass⟩
          rcases Nat.eq_zero_or_pos n with rfl | hpos
          · have hend := lexer.atEnd_pass hf
            rw [hpass, Cursor.skip_zero, he] at hend
            cases hend
          · exact hpos
        simp [stateOf, hb, checkpoint_passing_ne hr hb]
    · have hr := lexer.reaches_pass_of_found (c := s.cursor) (by rw [hf]; simp)
      simp [stateOf, hb, checkpoint_passing_ne hr hb]

/-- A run without a match restores the checkpoint exactly if the stream stood neither before skipped
text at the end nor before text that holds no token. This holds of segments, of rules and of every
operation that is run like the body of a segment. -/
theorem checkpoint_of_givesUp_iff (grammar : Grammar) (s s' : Stream lexer) :
    (∀ segment : Segment, GivesUp (segment.run grammar s) s' →
      (s'.checkpoint = s.checkpoint ↔ ¬ s.BeforeSkippedTail ∧ ¬ s.BeforeUnreadable)) ∧
    (∀ rule : Rule, GivesUp (rule.run grammar s) s' →
      (s'.checkpoint = s.checkpoint ↔ ¬ s.BeforeSkippedTail ∧ ¬ s.BeforeUnreadable)) ∧
    (∀ options body, GivesUp (guarded grammar options body s) s' →
      (s'.checkpoint = s.checkpoint ↔ ¬ s.BeforeSkippedTail ∧ ¬ s.BeforeUnreadable)) := by
  have key : ∀ options body, GivesUp (guarded grammar options body s) s' →
      (s'.checkpoint = s.checkpoint ↔ ¬ s.BeforeSkippedTail ∧ ¬ s.BeforeUnreadable) := by
    intro options body h
    rw [checkpoint_of_givesUp h]
    exact checkpoint_peek_iff s
  refine ⟨fun segment h => ?_, fun rule h => ?_, key⟩
  · rw [run_eq_guarded] at h
    exact key _ _ h
  · exact key _ _ h

/-- Words of one letter, and blanks that are skipped. -/
def wordsAndBlanks : Lexer where
  forms := [⟨"blank", [.literals [" "]], []⟩, ⟨"word", [.literals ["a"]], []⟩]
  skipped := ["blank"]

/-- After the only word of a text, where nothing is left, a run that looks for another word restores
the checkpoint. -/
theorem checkpoint_of_givesUp_behind_word :
    let s : Stream wordsAndBlanks := stateOf (next (.ofString "a"))
    let s' := stateOf (Segment.run {} (.ofKind "word") s)
    GivesUp (Segment.run {} (.ofKind "word") s) s' ∧
      (s'.checkpoint = s.checkpoint ↔ ¬ s.BeforeSkippedTail ∧ ¬ s.BeforeUnreadable) := by
  intro s s'
  have h : GivesUp (Segment.run {} (.ofKind "word") s) s' := givesUp_of_gaveUp (by decide)
  exact ⟨h, (checkpoint_of_givesUp_iff {} s s').1 _ h⟩

/-- Before a blank that ends the text, and before a character that begins no token, a run without a
match ends elsewhere. -/
theorem checkpoint_not_restored :
    ¬ (∀ (lexer : Lexer) (text : String) (grammar : Grammar) (segment : Segment)
        (s s' : Stream lexer), s.Reachable text → GivesUp (segment.run grammar s) s' →
        s'.checkpoint = s.checkpoint) ∧
    (∀ text ∈ [" ", "?"],
      let s : Stream wordsAndBlanks := .ofString text
      let s' := stateOf (Segment.run {} (.ofKind "word") s)
      gaveUp (Segment.run {} (.ofKind "word") s) = true ∧ s'.checkpoint ≠ s.checkpoint) := by
  refine ⟨fun h => ?_, by decide⟩
  have hs := h wordsAndBlanks " " {} (.ofKind "word") (.ofString " ") _ .start
    (givesUp_of_gaveUp (by decide))
  exact absurd hs (by decide)

/-! ## Later questions -/

/-- What can be asked of a stream. -/
inductive Query where
  | peek
  | next
  | atEnd
  | position
  | lastEnd
  | depth

inductive Answer where
  | token (a : Except ReadError (Option Token))
  | ended (a : Except ReadError Bool)
  | position (a : Except ReadError Position)
  | depth (n : Nat)

/-- The answer of an operation that reads tokens. -/
def valueOf {ε σ α : Type} : EStateM.Result ε σ α → Except ε α
  | .ok a _ => .ok a
  | .error e _ => .error e

/-- The answer to a query, and the state in which the stream goes on. -/
def Query.ask (s : Stream lexer) : Query → Answer × Stream lexer
  | peek => (.token (valueOf s.peek), stateOf s.peek)
  | next => (.token (valueOf s.next), stateOf s.next)
  | atEnd => (.ended (valueOf s.atEnd), stateOf s.atEnd)
  | position => (.position (valueOf s.position), stateOf s.position)
  | lastEnd => (.position (.ok s.lastEnd), s)
  | depth => (.depth s.depth, s)

/-- The answers to queries that are asked in a row. -/
def answers (s : Stream lexer) : List Query → List Answer
  | [] => []
  | q :: qs => (q.ask s).1 :: answers (q.ask s).2 qs

/-- Two streams stand at the same cursor, whether they looked at the token behind it or not. -/
def Bisimilar (s t : Stream lexer) : Prop :=
  (∃ c, s.StandsAt c ∧ t.StandsAt c) ∧ s.lastEnd = t.lastEnd ∧ s.depth = t.depth

theorem Bisimilar.of_same {s t : Stream lexer} {c : Cursor} (h : Same s t) (hs : s.StandsAt c) :
    Bisimilar s t :=
  ⟨⟨c, hs, h.standsAt hs⟩, h.lastEnd, h.depth⟩

/-- After a look, bisimilar streams do not differ at all. -/
theorem Bisimilar.peek_cases {s t : Stream lexer} (h : Bisimilar s t) :
    ∃ c s' t', s'.StandsAt c ∧ Same s' t' ∧
      ((∃ a, s.peek = .ok a s' ∧ t.peek = .ok a t') ∨
        ∃ e, s.peek = .error e s' ∧ t.peek = .error e t') := by
  obtain ⟨⟨c, hs, ht⟩, hl, hd⟩ := h
  have hpass : Same (s.passing c) (t.passing c) := ⟨rfl, rfl, hl, hd⟩
  rcases Stream.peek_cases hs with ⟨a, s', hf, hp, hs'⟩ | ⟨hf, hp⟩ | ⟨e, hf, hp⟩ <;>
    rcases Stream.peek_cases ht with ⟨a', t', hf', hp', ht'⟩ | ⟨hf', hp'⟩ | ⟨e', hf', hp'⟩ <;>
    rw [hf] at hf' <;> cases hf'
  · have hhold : Same (s.holding c a) (t.holding c a) := ⟨rfl, rfl, hl, hd⟩
    exact ⟨c, s', t', hs'.symm.standsAt (standsAt_holding hf), hs'.trans (hhold.trans ht'.symm),
      Or.inl ⟨some a, hp, hp'⟩⟩
  · exact ⟨_, _, _, standsAt_passing s c, hpass, Or.inl ⟨none, hp, hp'⟩⟩
  · exact ⟨_, _, _, standsAt_passing s c, hpass, Or.inr ⟨e, hp, hp'⟩⟩

theorem same_handOut {s t : Stream lexer} (h : Same s t) : Same s.handOut t.handOut := by
  unfold handOut
  rw [h.buffered]
  split
  · exact ⟨h.cursor, rfl, rfl, h.depth⟩
  · exact h

/-- A query gives bisimilar streams the same answer and leaves them bisimilar. -/
theorem Bisimilar.ask {s t : Stream lexer} (h : Bisimilar s t) (q : Query) :
    (q.ask s).1 = (q.ask t).1 ∧ Bisimilar (q.ask s).2 (q.ask t).2 := by
  obtain ⟨c, s', t', hc, hsame, hp⟩ := h.peek_cases
  have hb : Bisimilar s' t' := .of_same hsame hc
  cases q with
  | peek =>
    rcases hp with ⟨a, hs, ht⟩ | ⟨e, hs, ht⟩ <;> simp only [Query.ask, hs, ht] <;> exact ⟨rfl, hb⟩
  | next =>
    obtain ⟨⟨d, hs, ht⟩, -, -⟩ := h
    have hstand := And.intro (standsAt_next hs) (standsAt_next ht)
    rcases hp with ⟨a, hs, ht⟩ | ⟨e, hs, ht⟩ <;>
      simp only [Query.ask, next_eq, hs, ht] at hstand ⊢
    · exact ⟨rfl, ⟨_, hstand⟩, (same_handOut hsame).lastEnd, (same_handOut hsame).depth⟩
    · exact ⟨rfl, ⟨_, hstand⟩, hsame.lastEnd, hsame.depth⟩
  | atEnd =>
    rcases hp with ⟨a, hs, ht⟩ | ⟨e, hs, ht⟩ <;> simp only [Query.ask, atEnd_eq, hs, ht] <;>
      exact ⟨rfl, hb⟩
  | position =>
    rcases hp with ⟨a, hs, ht⟩ | ⟨e, hs, ht⟩ <;> simp only [Query.ask, position_eq, hs, ht]
    · cases a with
      | none =>
        have hpos : s'.cursor.position = t'.cursor.position := by rw [hsame.cursor]
        exact ⟨congrArg (Answer.position ∘ Except.ok) hpos, hb⟩
      | some a => exact ⟨rfl, hb⟩
    · exact ⟨rfl, hb⟩
  | lastEnd => exact ⟨congrArg (Answer.position ∘ Except.ok) h.2.1, h⟩
  | depth => exact ⟨congrArg Answer.depth h.2.2, h⟩

theorem Bisimilar.answers_eq {s t : Stream lexer} (h : Bisimilar s t) (qs : List Query) :
    answers s qs = answers t qs := by
  induction qs generalizing s t with
  | nil => rfl
  | cons q qs ih =>
    obtain ⟨ha, hb⟩ := h.ask q
    rw [answers, answers, ha, ih hb]

/-- A look that succeeds changes no later answer. -/
theorem answers_peek {s s' : Stream lexer} {a : Option Token} (hp : peek s = .ok a s')
    (qs : List Query) : answers s qs = answers s' qs := by
  have hp' := peek_again hp
  obtain ⟨hl, hd⟩ := peek_frame s
  rw [hp] at hl hd
  induction qs with
  | nil => rfl
  | cons q qs ih =>
    rw [answers, answers]
    cases q with
    | peek => rw [Query.ask, Query.ask, hp, hp']
    | next => rw [Query.ask, Query.ask, next_eq, next_eq, hp, hp']
    | atEnd => rw [Query.ask, Query.ask, atEnd_eq, atEnd_eq, hp, hp']
    | position => rw [Query.ask, Query.ask, position_eq, position_eq, hp, hp']
    | lastEnd => simp only [Query.ask, ih]; rw [← hl]; rfl
    | depth => simp only [Query.ask, ih]; rw [← hd]; rfl

/-- Where a look succeeds, a run without a match leads back to where that look led. -/
theorem bisimilar_of_givesUp {text : String} {grammar : Grammar} {segment : Segment}
    {s s₁ s' : Stream lexer} {a : Option Token} (hr : s.Reachable text) (hp : peek s = .ok a s₁)
    (h : GivesUp (segment.run grammar s) s') : Bisimilar s' s₁ := by
  have hr₁ : s₁.Reachable text := by have := hr.look; rwa [hp] at this
  obtain ⟨k, hk⟩ := hr.standsAt_place
  obtain ⟨k₁, hk₁⟩ := hr₁.standsAt_place
  have hd₁ : s₁.depth = s.depth := by have := (peek_frame s).2; rwa [hp] at this
  rw [run_eq_guarded] at h
  obtain ⟨seen, hseen, hs'⟩ := h.of_guarded
  obtain rfl : seen = s₁.atDepth (s.depth + 1) := by rw [hseen, peek_atDepth, hp]; rfl
  rcases hs' with rfl | ⟨e, behind, hb, hs'⟩
  · exact ⟨⟨_, hk₁, hk₁⟩, rfl, by simp only [depth_atDepth, hd₁]; omega⟩
  · have hbody : Keeps (Reachable text) (segment.shape.body grammar (innerRun grammar s)) :=
      keeps_body (fun _ => Segment.keeps_runWithin grammar _ _) grammar _
    obtain ⟨hrb, hdb⟩ := hbody _ ((hr₁.nest (s.depth + 1)).note e)
    rw [← hb] at hrb hdb
    obtain ⟨j, hj⟩ := hrb.standsAt_place
    have hback := standsAt_returnTo (s := behind) hk₁ (lexer.sound_place text k₁)
      (by rw [hj.text_eq, lexer.text_place, lexer.text_place])
    refine ⟨⟨_, hs'.symm.standsAt (hback.atDepth _), hk₁⟩, hs'.lastEnd, ?_⟩
    rw [hs'.depth, depth_atDepth, hdb, hd₁]
    rfl

/-- Where a look at the next token succeeds, no later questions can tell that a segment was run
there without a match. -/
theorem answers_of_givesUp {text : String} {grammar : Grammar} {segment : Segment}
    {s s₁ s' : Stream lexer} {a : Option Token} (hr : s.Reachable text) (hp : peek s = .ok a s₁)
    (h : GivesUp (segment.run grammar s) s') (qs : List Query) : answers s' qs = answers s qs := by
  rw [answers_peek hp, (bisimilar_of_givesUp hr hp h).answers_eq]

/-- Two words in a row. -/
def twoWords : Rule := { name := "two", segments := [.ofKind "word", .ofKind "word"] }

/-- On a single word behind a blank, the rule for two words fails after it has read one. The word is
there again, and so is the end of the text behind it. -/
theorem answers_of_givesUp_twoWords :
    let s : Stream wordsAndBlanks := .ofString " a "
    let s' := stateOf (twoWords.toSegment.run {} s)
    let qs : List Query := [.lastEnd, .next, .position, .next, .depth]
    s.Reachable " a " ∧ (∃ t s₁, peek s = .ok (some t) s₁) ∧
      GivesUp (twoWords.toSegment.run {} s) s' ∧ answers s' qs = answers s qs := by
  intro s s' qs
  obtain ⟨t, s₁, hp⟩ : ∃ t s₁, peek s = .ok (some t) s₁ := ⟨_, _, rfl⟩
  have h : GivesUp (twoWords.toSegment.run {} s) s' := givesUp_of_gaveUp (by decide)
  exact ⟨.start, ⟨t, s₁, hp⟩, h, answers_of_givesUp .start hp h qs⟩

end Descent
