import Descent.Proofs.Balance

/-!
# Operations that end

`Ends` is the triple of a program logic: from the states of `I` an operation ends, and if it gives a
result then with what `Q` says. The states are described by how far a stream has come at least
(`From`). A step of a loop moves the stream, and no stream moves beyond the end of its text; so a
loop with `fuel` steps left has enough of them as long as the text ends before `least + fuel`.

The steps of a list in delimiters are its elements with the separators behind them, which is why the
separators must not match without reading anything.

* `offset_add_unread`: what lies behind a stream and ahead of it makes up the text.
* `ends_attempt`: what a segment reads is what it reports as its progress.
* `ends_elementsUntilEnd`, `ends_elementsUntil`, `ends_separatedElements`: repetitions.
* `ends_expressionFrom`: rows of operators, which recurse without going deeper.
-/
namespace Descent

open Descent.Stream

variable {lexer : Lexer} {α β : Type}

/-! ## What is left of a text -/

theorem Cursor.Sound.offset_add_length {c : Cursor} (h : c.Sound) :
    c.position.offset + c.rest.length = c.text.length := by
  obtain ⟨behind, ht, -, hp⟩ := h
  rw [hp, ht]
  simp [Position.start]

theorem Stream.StandsAt.offset_eq {s : Stream lexer} {c : Cursor} (h : s.StandsAt c) :
    s.offset = c.position.offset := congrArg (·.position.offset) h.bookmark_eq

theorem Stream.StandsAt.unread_eq {s : Stream lexer} {c : Cursor} (h : s.StandsAt c)
    (hc : c.Sound) : s.unread = c.rest.length := by
  rw [unread, h.bookmark_eq, h.text_eq]
  exact congrArg List.length hc.dropBytes_byte

variable {text : String}

/-- What lies behind a stream and what lies ahead of it make up the text. -/
theorem Stream.Reachable.offset_add_unread {s : Stream lexer} (h : s.Reachable text) :
    s.offset + s.unread = text.toList.length := by
  obtain ⟨k, hk⟩ := h.standsAt_place
  have hsound := lexer.sound_place text k
  rw [hk.offset_eq, hk.unread_eq hsound, hsound.offset_add_length, lexer.text_place]

theorem Stream.Reachable.offset_le_look {s : Stream lexer} (h : s.Reachable text) :
    s.offset ≤ (stateOf (peek s)).offset := by
  obtain ⟨k, hk⟩ := h.standsAt_place
  rw [hk.offset_eq]
  rcases standsAt_peek hk with hp | hp
  · exact Nat.le_of_eq hp.offset_eq.symm
  · rw [hp.offset_eq]
    exact (lexer.reaches_pass _).offset_le

theorem Stream.Reachable.offset_le_take {s : Stream lexer} (h : s.Reachable text) :
    s.offset ≤ (stateOf (next s)).offset := by
  obtain ⟨k, hk⟩ := h.standsAt_place
  rw [hk.offset_eq, (standsAt_next hk).offset_eq]
  exact (lexer.reaches_pass _).offset_le

/-- A token that is handed out lies behind the stream. -/
theorem Stream.Reachable.offset_lt_take {s s' : Stream lexer} (h : s.Reachable text) {t : Token}
    (ht : next s = .ok (some t) s') : s.offset < s'.offset := by
  obtain ⟨k, hk⟩ := h.standsAt_place
  have hs' : s'.StandsAt (lexer.pass (lexer.place text k)) := by
    have hn := standsAt_next hk
    rwa [ht] at hn
  rw [hk.offset_eq, hs'.offset_eq]
  refine (lexer.reaches_pass_of_found fun hf => ?_).offset_le
  rw [next_eq] at ht
  rcases peek_cases hk with ⟨t', s₁, hf', -⟩ | ⟨-, hp⟩ | ⟨e, hf', -⟩
  · rw [hf'] at hf; cases hf
  · rw [hp] at ht; cases ht
  · rw [hf'] at hf; cases hf

/-- The states of a stream over the text, at this depth of nesting and past `least` characters. -/
structure From (text : String) (depth least : Nat) (s : Stream lexer) : Prop where
  reachable : s.Reachable text
  depth_eq : s.depth = depth
  le : least ≤ s.offset

theorem From.mono {depth m n : Nat} {s : Stream lexer} (h : From text depth n s) (hmn : m ≤ n) :
    From text depth m s :=
  ⟨h.reachable, h.depth_eq, Nat.le_trans hmn h.le⟩

theorem From.here {depth m : Nat} {s : Stream lexer} (h : From text depth m s) :
    From text depth s.offset s :=
  ⟨h.reachable, h.depth_eq, Nat.le_refl _⟩

/-- No stream moves beyond the end of its text. -/
theorem From.le_length {depth m : Nat} {s : Stream lexer} (h : From text depth m s) :
    m ≤ text.toList.length := by
  have := h.reachable.offset_add_unread
  have := h.le
  omega

/-- The same at any depth. -/
structure Stream.Beyond (text : String) (least : Nat) (s : Stream lexer) : Prop where
  reachable : s.Reachable text
  le : least ≤ s.offset

instance (least : Nat) : Closed (Beyond text least : Stream lexer → Prop) where
  look h := ⟨h.reachable.look, Nat.le_trans h.le h.reachable.offset_le_look⟩
  take h := ⟨h.reachable.take, Nat.le_trans h.le h.reachable.offset_le_take⟩
  back hs ht := ⟨.back hs.reachable ht.reachable, ht.le⟩
  nest h d := ⟨.nest h.reachable d, h.le⟩
  note h e := ⟨.note h.reachable e, h.le⟩

/-- What keeps the depth stays at its depth. -/
theorem Keeps.from {depth least : Nat} {x : Parse lexer α} (h : Keeps (Beyond text least) x) :
    Keeps (From text depth least) x := fun s hs => by
  obtain ⟨hbeyond, hdepth⟩ := h s ⟨hs.reachable, hs.le⟩
  exact ⟨⟨hbeyond.reachable, hdepth.trans hs.depth_eq, hbeyond.le⟩, hdepth⟩

instance (depth least : Nat) : Steady (From text depth least : Stream lexer → Prop) where
  look h := ⟨h.reachable.look, (peek_frame _).2.trans h.depth_eq,
    Nat.le_trans h.le h.reachable.offset_le_look⟩
  take h := ⟨h.reachable.take,
    (depth_next _).trans h.depth_eq,
    Nat.le_trans h.le h.reachable.offset_le_take⟩
  back hs ht := ⟨.back hs.reachable ht.reachable, hs.depth_eq, ht.le⟩
  enter h _ _ := ⟨.note h.reachable _, h.depth_eq, h.le⟩
  remark h _ _ := ⟨.note h.reachable _, h.depth_eq, h.le⟩

/-! ## Ending -/

variable {I : Stream lexer → Prop}

/-- From the states of `I` the operation ends: with a result and a state of which `Q` holds, or with
an error. -/
def Ends (I : Stream lexer → Prop) (x : Parse lexer α) (Q : α → Stream lexer → Prop) : Prop :=
  ∀ s, I s → (∃ a s', x s = .ok a s' ∧ Q a s') ∨ ∃ e s', x s = .error (.error e) s'

theorem ends_pure {Q : α → Stream lexer → Prop} {a : α} (h : ∀ s, I s → Q a s) :
    Ends I (pure a : Parse lexer α) Q := fun s hs => Or.inl ⟨a, s, rfl, h s hs⟩

theorem ends_refuse (e : ParseError) (Q : α → Stream lexer → Prop) :
    Ends I (Parse.refuse e : Parse lexer α) Q := fun s _ => Or.inr ⟨e, s, rfl⟩

theorem Ends.mono {x : Parse lexer α} {Q R : α → Stream lexer → Prop} (h : Ends I x Q)
    (hQR : ∀ a s, Q a s → R a s) : Ends I x R := fun s hs => by
  rcases h s hs with ⟨a, s', hx, hQ⟩ | he
  · exact Or.inl ⟨a, s', hx, hQR a s' hQ⟩
  · exact Or.inr he

theorem Ends.bind {x : Parse lexer α} {f : α → Parse lexer β} {R : α → Stream lexer → Prop}
    {Q : β → Stream lexer → Prop} (hx : Ends I x R) (hf : ∀ a, Ends (R a) (f a) Q) :
    Ends I (x >>= f) Q := by
  intro s hs
  rw [bind_apply]
  rcases hx s hs with ⟨a, s', hx, hR⟩ | ⟨e, s', hx⟩
  · rw [hx]; exact hf a s' hR
  · rw [hx]; exact Or.inr ⟨e, s', rfl⟩

theorem ends_get_bind {f : Stream lexer → Parse lexer α} {Q : α → Stream lexer → Prop}
    (hf : ∀ s, I s → Ends I (f s) Q) : Ends I (get >>= f) Q :=
  fun s hs => hf s hs s hs

/-- What never goes on for ever and stays among the states of `I` ends there. -/
theorem Keeps.ends {x : Parse lexer α} (h : Keeps I x) (hx : ∀ s s', x s ≠ .error .endless s') :
    Ends I x fun _ => I := fun s hs => by
  have hI := (h s hs).1
  cases hr : x s with
  | ok a s' => rw [hr] at hI; exact Or.inl ⟨a, s', rfl, hI⟩
  | error e s' =>
    cases e with
    | error e => exact Or.inr ⟨e, s', rfl⟩
    | endless => exact absurd hr (hx s s')

theorem ofPull_ne_endless (x : Pull lexer α) (s s' : Stream lexer) :
    Parse.ofPull x s ≠ .error .endless s' := by
  unfold Parse.ofPull
  cases x s <;> exact nofun

section

variable [Steady I]

theorem ends_peek : Ends I Parse.peek fun _ => I := keeps_peek.ends (ofPull_ne_endless _)

theorem ends_next : Ends I Parse.next fun _ => I := keeps_next.ends (ofPull_ne_endless _)

theorem ends_atEnd : Ends I Parse.atEnd fun _ => I := keeps_atEnd.ends (ofPull_ne_endless _)

theorem ends_position : Ends I Parse.position fun _ => I :=
  keeps_position.ends (ofPull_ne_endless _)

theorem ends_complaint (o : Outcome) : Ends I (Parse.complaint o) fun _ => I := by
  unfold Parse.complaint
  split
  · exact ends_pure fun _ h => h
  · refine ends_position.bind fun p => ends_peek.bind fun t => ?_
    split <;> exact ends_pure fun _ h => h

end

/-! ## Progress -/

/-- The characters that a match says it read. -/
def Outcome.gain (o : Outcome) : Nat := if o.isMatch then o.progress else 0

variable {depth least : Nat}

/-- From everywhere at this depth the operation ends, and what it says it read lies behind the
stream. -/
def Paced (text : String) (depth : Nat) (x : Parse lexer Outcome) : Prop :=
  ∀ least, Ends (From text depth least) x fun o => From text depth (least + o.gain)

/-- From everywhere at this depth the operation ends and does not go back. -/
def Onward (text : String) (depth : Nat) (x : Parse lexer α) : Prop :=
  ∀ least, Ends (From text depth least) x fun _ => From text depth least

theorem Paced.onward {x : Parse lexer Outcome} (h : Paced text depth x) : Onward text depth x :=
  fun least => (h least).mono fun _ _ hs => hs.mono (Nat.le_add_right _ _)

/-- A token that is handed out is behind the stream. -/
theorem ends_next_token : Ends (From text depth least) (Parse.next : Parse lexer _) fun t =>
    From text depth (if t.isSome then least + 1 else least) := by
  intro s hs
  rcases ends_next s hs with ⟨t, s', ht, hs'⟩ | he
  · refine Or.inl ⟨t, s', ht, ?_⟩
    cases t with
    | none => exact hs'
    | some t =>
      have hn : next s = .ok (some t) s' := by
        unfold Parse.next Parse.ofPull at ht
        cases hn : next s with
        | ok a s₁ => rw [hn] at ht; cases ht; rfl
        | error e s₁ => rw [hn] at ht; cases ht
      have := hs.reachable.offset_lt_take hn
      have := hs.le
      exact ⟨hs'.reachable, hs'.depth_eq, show least + 1 ≤ s'.offset by omega⟩
  · exact Or.inr he

theorem ends_settled (options : Options) (start : Position) {body : Parse lexer Outcome}
    (h : Onward text depth body) : Paced text depth (settled options start body) := by
  intro least s hs
  rcases h s.offset s hs.here with ⟨o, s', hb, hs'⟩ | ⟨e, s', hb⟩
  · have hle := hs.le
    have hle' := hs'.le
    cases hm : o.isMatch with
    | true =>
      refine Or.inl ⟨_, _, settled_of_match hb hm, hs'.reachable, hs'.depth_eq, ?_⟩
      show least + (s'.offset - s.offset) ≤ s'.offset
      omega
    | false =>
      obtain ⟨f, e, -, hr⟩ := settled_of_failure hb hm
      exact Or.inl ⟨_, _, hr, .note (.back hs'.reachable hs.reachable) e, hs'.depth_eq, hle⟩
  · exact Or.inr ⟨e, s'.returnTo s.checkpoint, by simp only [settled, hb]⟩

/-- What a segment reads is what it reports as its progress. -/
theorem ends_attempt (options : Options) {body : Parse lexer Outcome}
    (h : Onward text depth body) : Paced text depth (attempt options body) := fun least =>
  ends_position.bind fun start s hs =>
    ends_settled options start h least (s.record _) (Steady.enter hs _ start)

theorem ends_deeper {x : Parse lexer Outcome} (h : Paced text (depth + 1) x) :
    Paced text depth (Parse.deeper x) := by
  intro least s hs
  rw [deeper_apply, hs.depth_eq]
  have hin : From text (depth + 1) least (s.atDepth (depth + 1)) :=
    ⟨.nest hs.reachable _, rfl, hs.le⟩
  rcases h least _ hin with ⟨o, s', hx, hs'⟩ | ⟨e, s', hx⟩
  · rw [hx]
    refine Or.inl ⟨o, _, rfl, .nest hs'.reachable _, ?_, hs'.le⟩
    rw [depth_atDepth, hs'.depth_eq, Nat.add_sub_cancel]
  · rw [hx]
    exact Or.inr ⟨e, _, rfl⟩

/-! ## Repetitions -/

theorem ends_required {element : Parse lexer Outcome} (h : Paced text depth element) :
    Ends (From text depth least) (required element) fun o =>
      From text depth (least + o.progress) := by
  refine (h least).bind fun o => ?_
  split
  · next hm => exact ends_pure fun _ hs => by rwa [Outcome.gain, if_pos hm] at hs
  · exact (ends_complaint o).bind fun e => ends_refuse e _

/-- A step of a repetition moves the stream. -/
theorem ends_requiredStep {element : Parse lexer Outcome} (h : Paced text depth element) :
    Ends (From text depth least) (requiredStep element) fun _ => From text depth (least + 1) := by
  refine ends_position.bind fun start => (ends_required h).bind fun o => ?_
  split
  · exact ends_refuse _ _
  · exact ends_pure fun _ hs => hs.mono (by omega)

theorem ends_elementsUntilEnd {element : Parse lexer Outcome} (h : Paced text depth element)
    {fuel : Nat} (hfuel : text.toList.length < least + fuel) :
    Ends (From text depth least) (elementsUntilEnd element fuel) fun _ =>
      From text depth least := by
  induction fuel generalizing least with
  | zero =>
    intro s hs
    have := hs.le_length
    omega
  | succ fuel ih =>
    refine ends_atEnd.bind fun done => ?_
    split
    · exact ends_pure fun _ hs => hs
    · refine (ends_requiredStep h).bind fun o => (ih (by omega)).bind fun items => ?_
      exact ends_pure fun _ hs => hs.mono (by omega)

theorem ends_elementsUntil {terminator element : Parse lexer Outcome}
    (ht : Onward text depth terminator) (h : Paced text depth element) {fuel : Nat}
    (hfuel : text.toList.length < least + fuel) :
    Ends (From text depth least) (elementsUntil terminator element fuel) fun _ =>
      From text depth least := by
  induction fuel generalizing least with
  | zero =>
    intro s hs
    have := hs.le_length
    omega
  | succ fuel ih =>
    refine (ht least).bind fun o => ?_
    split
    · exact ends_pure fun _ hs => hs
    · refine ends_atEnd.bind fun done => ?_
      split
      · exact ends_pure fun _ hs => hs
      · refine (ends_requiredStep h).bind fun o => (ih (by omega)).bind fun items => ?_
        exact ends_pure fun _ hs => hs.mono (by omega)

/-- A match of it has read something. -/
def Consuming (text : String) (depth : Nat) (x : Parse lexer Outcome) : Prop :=
  ∀ s o s', From text depth 0 s → x s = .ok o s' → o.isMatch = true → o.progress ≠ 0

theorem ends_separator {separator : Parse lexer Outcome} (h : Paced text depth separator)
    (hc : Consuming text depth separator) :
    Ends (From text depth least) separator fun o =>
      From text depth (if o.isMatch then least + 1 else least) := by
  intro s hs
  rcases h least s hs with ⟨o, s', hx, hs'⟩ | he
  · refine Or.inl ⟨o, s', hx, ?_⟩
    unfold Outcome.gain at hs'
    split at hs'
    · next hm =>
      have := hc s o s' (hs.mono (Nat.zero_le _)) hx hm
      rw [if_pos hm]
      exact hs'.mono (by omega)
    · next hm => rwa [if_neg hm]
  · exact Or.inr he

/-- A list goes on behind a separator, which has moved the stream. -/
theorem ends_separatedElements {closing separator element : Parse lexer Outcome}
    (hc : Onward text depth closing) (hs : Paced text depth separator)
    (hconsuming : Consuming text depth separator) (he : Paced text depth element) {fuel : Nat}
    (hfuel : text.toList.length < least + fuel) :
    Ends (From text depth least) (separatedElements closing separator element fuel) fun _ =>
      From text depth least := by
  induction fuel generalizing least with
  | zero =>
    intro s hs
    have := hs.le_length
    omega
  | succ fuel ih =>
    have hfirst : Onward text depth (required element) := fun _ =>
      (ends_required he).mono fun _ _ hs => hs.mono (by omega)
    refine (hfirst least).bind fun o => (ends_separator hs hconsuming).bind fun sep => ?_
    split
    · refine (ih (by omega)).bind fun _ => ?_
      exact ends_pure fun _ hs => hs.mono (by omega)
    · exact (hc least).bind fun _ => ends_pure fun _ hs => hs

/-- From here on a loop with as many steps as `steps` gives has enough of them. -/
theorem ends_steps_bind {f : Nat → Parse lexer α}
    (hf : ∀ least fuel, text.toList.length < least + fuel →
      Ends (From text depth least) (f fuel) fun _ => From text depth least) :
    Onward text depth (steps >>= f) := by
  intro least s hs
  have hsum := hs.reachable.offset_add_unread
  refine ((hf s.offset (s.unread + 2) (by omega)).mono fun _ _ h => ?_) s hs.here
  exact h.mono hs.le

theorem ends_untilEndBody {element : Parse lexer Outcome} (h : Paced text depth element) :
    Onward text depth (untilEndBody element) :=
  ends_steps_bind fun _ _ hfuel => (ends_elementsUntilEnd h hfuel).bind fun _ =>
    ends_pure fun _ hs => hs

theorem ends_untilMatchBody {terminator element : Parse lexer Outcome}
    (ht : Onward text depth terminator) (h : Paced text depth element) :
    Onward text depth (untilMatchBody terminator element) :=
  ends_steps_bind fun _ _ hfuel => (ends_elementsUntil ht h hfuel).bind fun _ =>
    ends_pure fun _ hs => hs

theorem ends_delimitedBody {opening closing separator element : Parse lexer Outcome}
    (ho : Onward text depth opening) (hc : Onward text depth closing)
    (hs : Paced text depth separator) (hconsuming : Consuming text depth separator)
    (he : Paced text depth element) :
    Onward text depth (delimitedBody opening closing separator element) := by
  refine fun least => (ho least).bind fun opened => ?_
  split
  · exact ends_pure fun _ h => h
  · refine (hc least).bind fun closed => ?_
    split
    · exact ends_pure fun _ h => h
    · refine ends_steps_bind (fun least fuel hfuel => ?_) least
      refine (ends_separatedElements hc hs hconsuming he hfuel).bind fun (items, closed) => ?_
      simp only
      split <;> exact ends_pure fun _ h => h

/-! ## Operators -/

theorem ends_operatorAbove? (tiers : List Tier) (floor : Option Nat) :
    Onward text depth (operatorAbove? tiers floor : Parse lexer _) := by
  refine fun least => ends_peek.bind fun t => ?_
  split
  · exact ends_pure fun _ h => h
  · split
    · exact ends_pure fun _ h => h
    · split <;> exact ends_pure fun _ h => h

theorem ends_operandThen {operand : Parse lexer Outcome}
    {more : Position → Value → Parse lexer Outcome} (h : Onward text depth operand)
    (hm : ∀ p v, Ends (From text depth least) (more p v) fun _ => From text depth least) :
    Ends (From text depth least) (operandThen operand more) fun _ => From text depth least := by
  refine ends_position.bind fun start => (h least).bind fun first => ?_
  split
  · exact hm _ _
  · exact ends_pure fun _ hs => hs

/-- The recursion goes on behind an operator, which has moved the stream. -/
theorem ends_expressionFrom {operand : Parse lexer Outcome} (h : Onward text depth operand)
    (tiers : List Tier) {fuel : Nat} (hfuel : text.toList.length < least + fuel)
    (floor : Option Nat) (start : Position) (left : Value) :
    Ends (From text depth least) (expressionFrom operand tiers fuel floor start left) fun _ =>
      From text depth least := by
  induction fuel generalizing least floor start left with
  | zero =>
    intro s hs
    have := hs.le_length
    omega
  | succ fuel ih =>
    have hmore (floor : Option Nat) (start : Position) (left : Value) :
        Ends (From text depth (least + 1)) (expressionFrom operand tiers fuel floor start left)
          fun _ => From text depth (least + 1) := ih (by omega) floor start left
    refine (ends_operatorAbove? tiers floor least).bind fun operator => ?_
    split
    · exact ends_pure fun _ hs => hs
    · refine ends_get_bind fun before hbefore => ends_next_token.bind fun token => ?_
      cases token with
      | none => exact ends_pure fun _ hs => hs
      | some token =>
        refine (ends_operandThen h (hmore _)).bind fun right => ?_
        split
        · exact ends_get_bind fun _ _ => (hmore _ _ _).mono fun _ _ hs => hs.mono (by omega)
        · intro s hs
          exact Or.inl ⟨_, _, rfl, Steady.back (hs.mono (Nat.le_succ _)) hbefore⟩

theorem ends_binaryBody {operand : Parse lexer Outcome} (h : Onward text depth operand)
    (tiers : List Tier) : Onward text depth (binaryBody operand tiers) := by
  intro least
  refine ends_operandThen h fun start left s hs => ?_
  have hsum := hs.reachable.offset_add_unread
  have hfuel : text.toList.length < s.offset + (s.unread + 1) := by omega
  exact ((ends_expressionFrom h tiers hfuel none start left).mono fun _ _ h => h.mono hs.le) s
    hs.here

end Descent
