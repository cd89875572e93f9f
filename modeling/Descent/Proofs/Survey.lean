import Descent.Proofs.Balance
import Descent.Proofs.Inside
import Descent.Proofs.Nodes

/-!
# What runs give, by what is known of their places

A run gives spans to the nodes that it builds and reports positions, and it takes all of these from
its stream. A `Survey` says what is known of the stream's states, and so of the spans and positions
that come from there. `Yields` carries this through a run: what it gives is as it shall be, what it
stops for is reported at a known position, and the stream stays among the surveyed states.

* `Yields.bind`, `yields_position_bind`: operations in a row, and those that look where they are.
* `yields_attempt`: a segment gives its data the span from its first token on.
* `yields_expressionFrom`: so does every operator with its operands.
-/
namespace Descent

open Descent.Stream

variable {lexer : Lexer} {α β : Type}

instance {I J : Stream lexer → Prop} [Closed I] [Closed J] : Closed fun s => I s ∧ J s where
  look h := ⟨Closed.look h.1, Closed.look h.2⟩
  take h := ⟨Closed.take h.1, Closed.take h.2⟩
  back hs ht := ⟨Closed.back hs.1 ht.1, Closed.back hs.2 ht.2⟩
  nest h d := ⟨Closed.nest h.1 d, Closed.nest h.2 d⟩
  note h e := ⟨Closed.note h.1 e, Closed.note h.2 e⟩

/-- What is known of the states that a stream comes to (`states`), of those that it comes to from
where it gave a position (`since`), and of those in which it has handed out a token since then
(`past`). -/
structure Survey (lexer : Lexer) where
  states : Stream lexer → Prop
  since : Position → Stream lexer → Prop
  past : Position → Stream lexer → Prop
  /-- The positions that may be reported. -/
  places : Position → Prop
  /-- The spans that a node may have. -/
  spans : Span → Prop
  /-- The names of the rules that may be reported as missing. -/
  missing : String → Prop
  closed_states : Closed states
  closed_since (p : Position) : Closed (since p)
  closed_past (p : Position) : Closed (past p)
  states_of_since {p : Position} {s : Stream lexer} (h : since p s) : states s
  since_of_past {p : Position} {s : Stream lexer} (h : past p s) : since p s
  unreadable {s s' : Stream lexer} {e : ReadError} (h : states s) (he : peek s = .error e s') :
    places e.position
  token {s s' : Stream lexer} {t : Token} (h : states s) (ht : peek s = .ok (some t) s') :
    spans t.span
  position {s s' : Stream lexer} {p : Position} (h : states s)
    (hp : Stream.position s = .ok p s') : places p ∧ since p s'
  take {s s' : Stream lexer} {p : Position} {t : Token} (h : since p s)
    (ht : next s = .ok (some t) s') : past p s'
  lastEnd {s : Stream lexer} (h : states s) : places s.lastEnd
  /-- A run that began at `p` can end here. -/
  settle {p : Position} {s : Stream lexer} (h : since p s) : spans ⟨p, p.latest s.lastEnd⟩
  /-- An operator can stand between `p` and here. -/
  operation {p : Position} {s : Stream lexer} (h : past p s) : spans ⟨p, s.lastEnd⟩

attribute [instance] Survey.closed_states Survey.closed_since Survey.closed_past

namespace Survey

/-- What is known without a look at the stream: nothing. -/
def blank : Survey lexer where
  states _ := True
  since _ _ := True
  past _ _ := True
  places _ := True
  spans _ := True
  missing _ := True
  closed_states := inferInstance
  closed_since _ := inferInstance
  closed_past _ := inferInstance
  states_of_since _ := trivial
  since_of_past _ := trivial
  unreadable _ _ := trivial
  token _ _ := trivial
  position _ _ := ⟨trivial, trivial⟩
  take _ _ := trivial
  lastEnd _ := trivial
  settle _ := trivial
  operation _ := trivial

variable (G : Survey lexer)

/-- The error is reported at a known position, if at any, and a rule that it misses is one that may
be missing. -/
structure Reports (e : ParseError) : Prop where
  position : ∀ p, e.position? = some p → G.places p
  rule : ∀ name, e = .unknownRule name → G.missing name

/-- What an operation comes to: a result as `Q` says, or a report, in one of the states of `I`. -/
def ComesTo (I : Stream lexer → Prop) (Q : α → Prop) :
    EStateM.Result Stop (Stream lexer) α → Prop
  | .ok a s => I s ∧ Q a
  | .error e s => I s ∧ ∀ pe, e = .error pe → G.Reports pe

/-- From the states of `J` the operation gives results of which `Q` holds, or stops with a report.
It leads out of no states that the stream's operations do not lead out of. -/
def Yields (J : Stream lexer → Prop) (x : Parse lexer α) (Q : α → Prop) : Prop :=
  ∀ (I : Stream lexer → Prop) [Closed I], (∀ s, I s → J s) → ∀ s, I s → G.ComesTo I Q (x s)

/-- The data of a match is as `V` says, and a failure has a known position. -/
structure Fits (V : Value → Prop) (o : Outcome) : Prop where
  data : ∀ v, o.data? = some v → V v
  position : ∀ f, o.failure? = some f → G.places f.position

variable {G} {J : Stream lexer → Prop} {V W : Value → Prop} {Q R : α → Prop}

theorem Fits.mono {o : Outcome} (h : G.Fits V o) (hVW : ∀ v, V v → W v) : G.Fits W o :=
  ⟨fun v hv => hVW v (h.data v hv), h.position⟩

theorem fits_success : G.Fits V .success := ⟨nofun, nofun⟩

theorem fits_withData {v : Value} (h : V v) : G.Fits V (.withData v) :=
  ⟨fun _ hw => Option.some.inj hw ▸ h, nofun⟩

theorem fits_ofData? {data : Option Value} (h : ∀ v, data = some v → V v) :
    G.Fits V (.ofData? data) := by
  cases data with
  | none => exact fits_success
  | some v => exact fits_withData (h v rfl)

theorem fits_failure {p : Position} {message : String} (h : G.places p) :
    G.Fits V (.failure p message) := by
  refine ⟨nofun, ?_⟩
  intro f hf
  cases hf
  exact h

theorem Fits.getD {N : Node → Prop} {o : Outcome} (h : G.Fits (·.All N) o) :
    (o.data?.getD .null).All N := by
  cases hd : o.data? with
  | none => exact Value.all_null
  | some v => exact h.data v hd

theorem Fits.toList_append {o : Outcome} (h : G.Fits V o) {items : List Value}
    (hitems : ∀ v ∈ items, V v) : ∀ v ∈ o.data?.toList ++ items, V v := by
  intro v hv
  rcases List.mem_append.1 hv with hv | hv
  · exact h.data v (by simpa using hv)
  · exact hitems v hv

/-! ## Operations -/

theorem yields_pure {a : α} (h : Q a) : G.Yields J (pure a : Parse lexer α) Q :=
  fun _ _ _ _ hs => ⟨hs, h⟩

theorem reports_of_place {e : ParseError} {p : Position} (he : e.position? = some p)
    (hp : G.places p) : G.Reports e := by
  refine ⟨?_, ?_⟩
  · intro q hq
    rw [he] at hq
    cases hq
    exact hp
  · intro name hname
    rw [hname] at he
    cases he

theorem yields_refuse {e : ParseError} (h : G.Reports e) :
    G.Yields J (Parse.refuse e : Parse lexer α) Q := by
  intro I _ _ s hs
  refine ⟨hs, fun pe hpe => ?_⟩
  cases hpe
  exact h

theorem yields_endless : G.Yields J (throw .endless : Parse lexer α) Q :=
  fun _ _ _ _ hs => ⟨hs, nofun⟩

theorem ComesTo.mono {I I' : Stream lexer → Prop} {r : EStateM.Result Stop (Stream lexer) α}
    (h : G.ComesTo I R r) (hI : ∀ s, I s → I' s) (hRQ : ∀ a, R a → Q a) : G.ComesTo I' Q r := by
  cases r with
  | ok a s => exact ⟨hI s h.1, hRQ a h.2⟩
  | error e s => exact ⟨hI s h.1, h.2⟩

theorem ComesTo.bind {I : Stream lexer → Prop} {x : Parse lexer α} {f : α → Parse lexer β}
    {Q : β → Prop} {s : Stream lexer} (hx : G.ComesTo I R (x s))
    (hf : ∀ a s', R a → I s' → G.ComesTo I Q (f a s')) : G.ComesTo I Q ((x >>= f) s) := by
  rw [bind_apply]
  cases h : x s with
  | ok a s' => rw [h] at hx; exact hf a s' hx.2 hx.1
  | error e s' => rw [h] at hx; exact hx

theorem Yields.bind {x : Parse lexer α} {f : α → Parse lexer β} {Q : β → Prop}
    (hx : G.Yields J x R) (hf : ∀ a, R a → G.Yields J (f a) Q) : G.Yields J (x >>= f) Q :=
  fun I _ hI s hs => (hx I hI s hs).bind fun a s' ha hs' => hf a ha I hI s' hs'

theorem yields_get_bind {f : Stream lexer → Parse lexer α}
    (hf : ∀ s, J s → G.Yields J (f s) Q) : G.Yields J (get >>= f) Q :=
  fun I _ hI s hs => hf s (hI s hs) I hI s hs

/-- From fewer states the operation gives no more. -/
theorem Yields.within {x : Parse lexer α} {K : Stream lexer → Prop} (h : G.Yields J x Q)
    (hK : ∀ s, K s → J s) : G.Yields K x Q :=
  fun I _ hI s hs => h I (fun s hs => hK s (hI s hs)) s hs

theorem Yields.mono {x : Parse lexer α} (h : G.Yields J x R) (hRQ : ∀ a, R a → Q a) :
    G.Yields J x Q :=
  fun I _ hI s hs => (h I hI s hs).mono (fun _ => id) hRQ

/-- An operation that reads tokens stops only where a look does. -/
theorem yields_ofPull {x : Pull lexer α} (hkeeps : ∀ I : Stream lexer → Prop, [Closed I] →
      PullKeeps I x) (hok : ∀ s a s', G.states s → x s = .ok a s' → Q a)
    (herror : ∀ s e s', x s = .error e s' → ∃ t, peek s = .error e t) :
    G.Yields G.states (Parse.ofPull x) Q := by
  intro I _ hI s hs
  have hkept := (hkeeps I s hs).1
  unfold Parse.ofPull
  cases hx : x s with
  | ok a s' => rw [hx] at hkept; exact ⟨hkept, hok s a s' (hI s hs) hx⟩
  | error e s' =>
    rw [hx] at hkept
    refine ⟨hkept, fun pe hpe => ?_⟩
    obtain ⟨t, ht⟩ := herror s e s' hx
    cases hpe
    exact reports_of_place rfl (G.unreadable (hI s hs) ht)

theorem yields_peek : G.Yields G.states Parse.peek fun found =>
    ∀ t, found = some t → G.spans t.span := by
  refine yields_ofPull (fun I _ => pullKeeps_peek) ?_ fun s e s' he => ⟨s', he⟩
  intro s found s' hs hp t ht
  subst ht
  exact G.token hs hp

theorem peek_of_next_error {s s' : Stream lexer} {e : ReadError} (h : next s = .error e s') :
    peek s = .error e s' := by
  rw [next_eq] at h
  split at h <;> cases h
  assumption

theorem peek_of_next_ok {s s' : Stream lexer} {found : Option Token}
    (h : next s = .ok found s') : ∃ s₁, peek s = .ok found s₁ := by
  rw [next_eq] at h
  split at h <;> cases h
  exact ⟨_, by assumption⟩

theorem peek_of_position_error {s s' : Stream lexer} {e : ReadError}
    (h : Stream.position s = .error e s') : peek s = .error e s' := by
  rw [position_eq] at h
  split at h <;> cases h
  assumption

theorem yields_next : G.Yields G.states Parse.next fun found =>
    ∀ t, found = some t → G.spans t.span := by
  refine yields_ofPull (fun I _ => pullKeeps_next) ?_ fun s e s' he => ⟨s', peek_of_next_error he⟩
  intro s found s' hs hn t ht
  subst ht
  obtain ⟨s₁, hp⟩ := peek_of_next_ok hn
  exact G.token hs hp

theorem yields_atEnd : G.Yields G.states Parse.atEnd fun _ => True := by
  refine yields_ofPull (fun I _ => pullKeeps_atEnd) (fun _ _ _ _ _ => trivial) ?_
  intro s e s' he
  rw [atEnd_eq] at he
  split at he <;> cases he
  exact ⟨s', by assumption⟩

/-- What comes behind a position comes from where it was given. -/
theorem yields_position_bind {f : Position → Parse lexer α}
    (hf : ∀ p, G.places p → G.Yields (G.since p) (f p) Q) :
    G.Yields G.states (Parse.position >>= f) Q := by
  intro I _ hI s hs
  rw [bind_apply]
  have hkept := (pullKeeps_position s hs).1
  unfold Parse.position Parse.ofPull
  cases hp : Stream.position s with
  | error e s' =>
    rw [hp] at hkept
    refine ⟨hkept, fun pe hpe => ?_⟩
    cases hpe
    exact reports_of_place rfl (G.unreadable (hI s hs) (peek_of_position_error hp))
  | ok p s' =>
    rw [hp] at hkept
    obtain ⟨hplace, hsince⟩ := G.position (hI s hs) hp
    have hr := hf p hplace (fun s => I s ∧ G.since p s) (fun s hs => hs.2) s' ⟨hkept, hsince⟩
    exact hr.mono (fun s hs => hs.1) fun _ => id

theorem yields_position : G.Yields G.states Parse.position G.places := by
  have h := yields_position_bind (G := G) (f := pure) fun p hp => yields_pure (Q := G.places) hp
  rwa [bind_pure] at h

theorem yields_note (e : Event) : G.Yields J (Parse.record e : Parse lexer Unit) fun _ => True :=
  fun _ _ _ _ hs => ⟨Closed.note hs e, trivial⟩

theorem yields_complaint {o : Outcome} (h : G.Fits V o) :
    G.Yields G.states (Parse.complaint o) G.Reports := by
  have hmismatch {p : Position} {detail : String} (hp : G.places p) :
      G.Reports (.mismatch p detail) := reports_of_place rfl hp
  unfold Parse.complaint
  split
  · next hf => exact yields_pure (hmismatch (h.position _ hf))
  · refine yields_position.bind fun p hp => yields_peek.bind fun found _ => ?_
    split
    · exact yields_pure (hmismatch hp)
    · exact yields_pure (hmismatch hp)

theorem Yields.deeper {x : Parse lexer α} (h : G.Yields G.states x Q) :
    G.Yields G.states (Parse.deeper x) Q := by
  intro I _ hI s hs
  have hr := h I hI _ (Closed.nest hs (s.depth + 1))
  rw [deeper_apply]
  cases hx : x (s.atDepth (s.depth + 1)) with
  | ok a s' => rw [hx] at hr; exact ⟨Closed.nest hr.1 _, hr.2⟩
  | error e s' => rw [hx] at hr; exact ⟨Closed.nest hr.1 _, hr.2⟩

section

variable {N : Node → Prop}

/-- A segment gives its data the span from the first token of the run to the end of the last. -/
theorem yields_attempt (options : Options) {body : Parse lexer Outcome}
    (h : G.Yields G.states body (G.Fits (Value.Due G.spans N))) :
    G.Yields G.states (attempt options body) (G.Fits (Value.All N)) := by
  rw [attempt_eq]
  refine yields_position_bind fun start _ => yields_get_bind fun _ _ =>
    (yields_note _).bind fun _ _ => ?_
  intro I _ hI s hs
  have hr := h I (fun s hs => G.states_of_since (hI s hs)) s hs
  unfold settled
  cases hb : body s with
  | error e s' => rw [hb] at hr; exact ⟨Closed.back hr.1 hs, hr.2⟩
  | ok o s' =>
    rw [hb] at hr
    obtain ⟨hs', hfits⟩ := hr
    simp only
    cases hverdict : o.verdict with
    | matched data =>
      have hspan := G.settle (hI s' hs')
      refine ⟨hs', ?_, nofun⟩
      intro v hv
      obtain ⟨w, hw, rfl⟩ := Option.map_eq_some_iff.1 hv
      exact hfits.data w (by rw [Outcome.data?, hverdict, hw]) _ hspan
    | failed f =>
      refine ⟨Closed.note (Closed.back hs' hs) _, nofun, ?_⟩
      intro g hg
      cases hg
      exact hfits.position f (by rw [Outcome.failure?, hverdict])

/-! ## Repetitions -/

variable {element terminator closing separator opening operand : Parse lexer Outcome}

theorem yields_required (he : G.Yields G.states element (G.Fits V)) :
    G.Yields G.states (required element) (G.Fits V) := by
  refine he.bind fun o ho => ?_
  split
  · exact yields_pure ho
  · exact (yields_complaint ho).bind fun e he => yields_refuse he

theorem yields_requiredStep (he : G.Yields G.states element (G.Fits V)) :
    G.Yields G.states (requiredStep element) (G.Fits V) := by
  refine yields_position.bind fun start hstart => (yields_required he).bind fun o ho => ?_
  split
  · exact yields_refuse (reports_of_place rfl hstart)
  · exact yields_pure ho

theorem yields_elementsUntilEnd (he : G.Yields G.states element (G.Fits V)) (fuel : Nat) :
    G.Yields G.states (elementsUntilEnd element fuel) fun items => ∀ v ∈ items, V v := by
  induction fuel with
  | zero => exact yields_endless
  | succ fuel ih =>
    refine yields_atEnd.bind fun done _ => ?_
    split
    · exact yields_pure (by simp)
    · refine (yields_requiredStep he).bind fun o ho => ih.bind fun items hitems => ?_
      exact yields_pure (ho.toList_append hitems)

theorem yields_elementsUntil (ht : G.Yields G.states terminator (G.Fits V))
    (he : G.Yields G.states element (G.Fits V)) (fuel : Nat) :
    G.Yields G.states (elementsUntil terminator element fuel) fun items => ∀ v ∈ items, V v := by
  induction fuel with
  | zero => exact yields_endless
  | succ fuel ih =>
    refine ht.bind fun ended _ => ?_
    split
    · exact yields_pure (by simp)
    · refine yields_atEnd.bind fun done _ => ?_
      split
      · exact yields_pure (by simp)
      · refine (yields_requiredStep he).bind fun o ho => ih.bind fun items hitems => ?_
        exact yields_pure (ho.toList_append hitems)

theorem yields_separatedElements (hc : G.Yields G.states closing (G.Fits V))
    (hs : G.Yields G.states separator (G.Fits V)) (he : G.Yields G.states element (G.Fits V))
    (fuel : Nat) :
    G.Yields G.states (separatedElements closing separator element fuel) fun found =>
      (∀ v ∈ found.1, V v) ∧ G.Fits V found.2 := by
  induction fuel with
  | zero => exact yields_endless
  | succ fuel ih =>
    refine (yields_required he).bind fun o ho => hs.bind fun sep _ => ?_
    split
    · refine ih.bind fun (items, closed) hfound => ?_
      exact yields_pure ⟨ho.toList_append hfound.1, hfound.2⟩
    · refine hc.bind fun closed hclosed => yields_pure ⟨?_, hclosed⟩
      intro v hv
      exact ho.data v (by simpa using hv)

theorem yields_steps : G.Yields J (steps : Parse lexer Nat) fun _ => True :=
  yields_get_bind fun _ _ => yields_pure trivial

theorem fits_list {items : List Value} (h : ∀ v ∈ items, v.All N) :
    G.Fits (Value.All N) (.withData (.list items)) := fits_withData (Value.all_list_iff.2 h)

theorem yields_untilEndBody (he : G.Yields G.states element (G.Fits (Value.All N))) :
    G.Yields G.states (untilEndBody element) (G.Fits (Value.All N)) :=
  yields_steps.bind fun fuel _ => (yields_elementsUntilEnd he fuel).bind fun _ hitems =>
    yields_pure (fits_list hitems)

theorem yields_untilMatchBody (ht : G.Yields G.states terminator (G.Fits (Value.All N)))
    (he : G.Yields G.states element (G.Fits (Value.All N))) :
    G.Yields G.states (untilMatchBody terminator element) (G.Fits (Value.All N)) :=
  yields_steps.bind fun fuel _ => (yields_elementsUntil ht he fuel).bind fun _ hitems =>
    yields_pure (fits_list hitems)

theorem yields_delimitedBody (ho : G.Yields G.states opening (G.Fits (Value.All N)))
    (hc : G.Yields G.states closing (G.Fits (Value.All N)))
    (hs : G.Yields G.states separator (G.Fits (Value.All N)))
    (he : G.Yields G.states element (G.Fits (Value.All N))) :
    G.Yields G.states (delimitedBody opening closing separator element)
      (G.Fits (Value.All N)) := by
  refine ho.bind fun opened hopened => ?_
  split
  · exact yields_pure hopened
  · refine hc.bind fun closed hclosed => ?_
    split
    · exact yields_pure (fits_list (by simp))
    · refine yields_steps.bind fun fuel _ =>
        (yields_separatedElements hc hs he fuel).bind fun (items, closed) hfound => ?_
      simp only
      split
      · exact yields_pure (fits_list hfound.1)
      · exact yields_pure hfound.2

/-! ## Operators -/

theorem yields_operatorAbove? (tiers : List Tier) (floor : Option Nat) :
    G.Yields G.states (operatorAbove? tiers floor : Parse lexer _) fun _ => True := by
  refine yields_peek.bind fun found _ => ?_
  split
  · exact yields_pure trivial
  · split
    · exact yields_pure trivial
    · split
      · exact yields_pure trivial
      · exact yields_pure trivial

theorem yields_operandThen {more : Position → Value → Parse lexer Outcome}
    (ho : G.Yields G.states operand (G.Fits (Value.All N)))
    (hm : ∀ p v, v.All N → G.Yields (G.since p) (more p v) (G.Fits (Value.All N))) :
    G.Yields G.states (operandThen operand more) (G.Fits (Value.All N)) := by
  refine yields_position_bind fun start _ =>
    (ho.within fun s => G.states_of_since).bind fun first hfirst => ?_
  split
  · exact hm start _ hfirst.getD
  · exact yields_pure hfirst

/-- A token is taken, and with it what stands to its right; or it is put back. Whatever comes behind
the token comes past the start. -/
theorem yields_taking {start : Position} {missing right : Parse lexer Outcome}
    {answer : Token → Outcome → Parse lexer Outcome} {Q : Outcome → Prop}
    (hmissing : G.Yields (G.since start) missing Q) (hright : G.Yields (G.past start) right Q)
    (hanswer : ∀ token o, Q o → G.Yields (G.past start) (answer token o) Q) :
    G.Yields (G.since start) (do
      let before ← get
      match ← Parse.next with
      | none => missing
      | some token =>
        let o ← right
        if o.isMatch then answer token o
        else
          modify (·.returnTo before.checkpoint)
          return o) Q := by
  intro I _ hI s hs
  have hnext := yields_next I (fun s hs => G.states_of_since (hI s hs)) s hs
  simp only [bind_apply, get_apply]
  unfold Parse.next Parse.ofPull at hnext ⊢
  cases hn : next s with
  | error e s' => rw [hn] at hnext; exact hnext
  | ok found s' =>
    rw [hn] at hnext
    cases found with
    | none => exact hmissing I hI s' hnext.1
    | some token =>
      -- From here on the stream is past the start, but for the return.
      have hpast : I s' ∧ G.past start s' := ⟨hnext.1, G.take (hI s hs) hn⟩
      have hr := hright (fun s => I s ∧ G.past start s) (fun s hs => hs.2) s' hpast
      simp only [bind_apply]
      cases hx : right s' with
      | error e s'' => rw [hx] at hr; exact ⟨hr.1.1, hr.2⟩
      | ok o s'' =>
        rw [hx] at hr
        obtain ⟨hs'', ho⟩ := hr
        simp only
        split
        · have ha := hanswer token o ho (fun s => I s ∧ G.past start s) (fun s hs => hs.2) s'' hs''
          exact ha.mono (fun s hs => hs.1) fun _ => id
        · exact ⟨Closed.back hs''.1 hs, ho⟩

/-- The node of an operator begins where its left operand did. -/
theorem yields_expressionFrom (hN : Heritable G.spans N)
    (ho : G.Yields G.states operand (G.Fits (Value.All N))) (tiers : List Tier) (fuel : Nat)
    (floor : Option Nat) (start : Position) {left : Value} (hleft : left.All N) :
    G.Yields (G.since start) (expressionFrom operand tiers fuel floor start left)
      (G.Fits (Value.All N)) := by
  induction fuel generalizing floor start left with
  | zero => exact yields_endless
  | succ fuel ih =>
    have hoperator := (yields_operatorAbove? (G := G) tiers floor).within
      fun s (hs : G.since start s) => G.states_of_since hs
    refine hoperator.bind fun operator _ => ?_
    split
    · exact yields_pure (fits_withData hleft)
    · next tier associativity =>
      refine yields_taking (yields_pure (fits_withData hleft)) ?_ ?_
      · refine (yields_operandThen ho ?_).within fun s hs =>
          G.states_of_since (G.since_of_past hs)
        intro p v hv
        exact ih _ p hv
      · intro token right hright
        refine yields_get_bind fun s hs => ?_
        have hnode := hN.operation (G.operation hs) token.value hleft hright.getD
        exact (ih floor start hnode).within fun s hs => G.since_of_past hs

theorem yields_binaryBody (hN : Heritable G.spans N)
    (ho : G.Yields G.states operand (G.Fits (Value.All N))) (tiers : List Tier) :
    G.Yields G.states (binaryBody operand tiers) (G.Fits (Value.All N)) :=
  yields_operandThen ho fun start _ hleft => yields_get_bind fun _ _ =>
    yields_expressionFrom hN ho tiers _ none start hleft

end

end Survey

end Descent
