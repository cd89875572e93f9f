import Descent.Proofs.Backtracking
import Descent.Proofs.ParallelLoops
import Descent.Run.Parser
import Mathlib.Data.List.Forall2

/-!
# Layout

What lies between the tokens has no say in a parse, and neither has where the tokens lie. This holds
of grammars that are `Blind`: none of their conversions looks at spans, none of their scripts at
positions, offsets, depth or text, and none of these fails where it has not looked.

* `Script.Alike`, `Script.Blind`: what a script may make of its answers.
* `Tokenized.returns_runWithin`: an error undoes what a run has read.
* `lockstep_script`: a blind script goes in lockstep.
* `lockstep_body`, `lockstep_runWithin`: so do all segments of a blind grammar.
* `runRoot_alike`, `parsed_parse`: and so does its root, from the start of the texts.
* `parse_layout`: two texts with the same tokens are parsed to the same value, or to errors that say
  the same.
* `layout_shows`: what scripts that do not look or that ask for the text make of a blank, and what a
  message tells of a zero.
-/
namespace Descent

open Descent.Stream

/-! ## Blindness -/

/-- The scripts come to the same, whatever the one and the other are told of places. `looked` says
whether the stream has looked at the next token since it last moved, and `held` are the failures of
the segments that the scripts have run, which they may hand on.

The position that a failure carries does not matter here, but the offset at which it is noticed
does, as a choice takes the failure that came furthest. Behind the last token a look passes over
what is skipped at the end of the text. So a script has to look before it fails: otherwise another
failure that has looked is further if there is a blank at the end, and is not if there is none. -/
inductive Script.Alike : Bool → List (Outcome × Outcome) → Script → Script → Prop
  | matched {looked : Bool} {held : List (Outcome × Outcome)} {o o' : Outcome}
    (hm : o.isMatch = true) (hm' : o'.isMatch = true) (h : o.unplaced = o'.unplaced) :
    Alike looked held (.finish o) (.finish o')
  | failed {held : List (Outcome × Outcome)} {o o' : Outcome} (hm : o.isMatch = false)
    (hm' : o'.isMatch = false) (h : o.unplaced = o'.unplaced) (reached : o.reached = 0)
    (reached' : o'.reached = 0) : Alike true held (.finish o) (.finish o')
  | handed {held : List (Outcome × Outcome)} {o o' : Outcome} (h : (o, o') ∈ held) :
    Alike true held (.finish o) (.finish o')
  | abort {looked : Bool} {held : List (Outcome × Outcome)} {e e' : ParseError}
    (h : e.unplaced = e'.unplaced) : Alike looked held (.abort e) (.abort e')
  | peek {looked : Bool} {held : List (Outcome × Outcome)}
    {f g : Except ReadError (Option Token) → Script}
    (h : ∀ a b : Option Token, a.map Token.content = b.map Token.content →
      Alike true held (f (.ok a)) (g (.ok b))) : Alike looked held (.peek f) (.peek g)
  | next {looked : Bool} {held : List (Outcome × Outcome)}
    {f g : Except ReadError (Option Token) → Script}
    (h : ∀ a b : Option Token, a.map Token.content = b.map Token.content →
      Alike false held (f (.ok a)) (g (.ok b))) : Alike looked held (.next f) (.next g)
  | position {looked : Bool} {held : List (Outcome × Outcome)}
    {f g : Except ReadError Position → Script}
    (h : ∀ p q : Position, Alike true held (f (.ok p)) (g (.ok q))) :
    Alike looked held (.position f) (.position g)
  | offset {looked : Bool} {held : List (Outcome × Outcome)} {f g : Nat → Script}
    (h : ∀ m n, Alike looked held (f m) (g n)) : Alike looked held (.offset f) (.offset g)
  | lastEnd {looked : Bool} {held : List (Outcome × Outcome)} {f g : Position → Script}
    (h : ∀ p q, Alike looked held (f p) (g q)) : Alike looked held (.lastEnd f) (.lastEnd g)
  | depth {looked : Bool} {held : List (Outcome × Outcome)} {f g : Nat → Script}
    (h : ∀ m n, Alike looked held (f m) (g n)) : Alike looked held (.depth f) (.depth g)
  | text {looked : Bool} {held : List (Outcome × Outcome)} {f g : String → Script}
    (h : ∀ a b, Alike looked held (f a) (g b)) : Alike looked held (.text f) (.text g)
  | save {looked : Bool} {held : List (Outcome × Outcome)} {f g : Script}
    (h : Alike looked held f g) : Alike looked held (.save f) (.save g)
  | restore {looked : Bool} {held : List (Outcome × Outcome)} {slot : Nat} {f g : Script}
    (h : Alike false held f g) : Alike looked held (.restore slot f) (.restore slot g)
  | unmoved {looked : Bool} {held : List (Outcome × Outcome)} {slot : Nat} {f g : Bool → Script}
    (h : ∀ a b, Alike looked held (f a) (g b)) :
    Alike looked held (.unmoved slot f) (.unmoved slot g)
  | call {looked : Bool} {held : List (Outcome × Outcome)} {part : Nat}
    {f g : Except ParseError Outcome → Script}
    (matched : ∀ o o' : Outcome, o.isMatch = true → o'.isMatch = true →
      o.unplaced = o'.unplaced → Alike false held (f (.ok o)) (g (.ok o')))
    (failed : ∀ o o' : Outcome, o.isMatch = false → o'.isMatch = false →
      o.unplaced = o'.unplaced → Alike true ((o, o') :: held) (f (.ok o)) (g (.ok o')))
    (refused : ∀ e e' : ParseError, e.unplaced = e'.unplaced →
      Alike true held (f (.error e)) (g (.error e'))) :
    Alike looked held (.call part f) (.call part g)
  | limit {looked : Bool} {held : List (Outcome × Outcome)} {f g : Nat → Script}
    (h : ∀ n, Alike looked held (f n) (g n)) : Alike looked held (.limit f) (.limit g)

/-- The script does not look at places. A segment looks at its first token before it runs. -/
def Script.Blind (script : Script) : Prop := Script.Alike true [] script script

mutual

/-- Nothing in it looks at places. -/
def Shape.Blind : Shape → Prop
  | .exact .. | .ofKind _ | .leaf _ | .possibly .. | .nothing | .fail _ | .reference _ => True
  | .optional s => s.Blind
  | .choice alternatives => Segment.AllBlind alternatives
  | .delimited opening closing separator element =>
    opening.Blind ∧ closing.Blind ∧ separator.Blind ∧ element.Blind
  | .between opening content closing => opening.Blind ∧ content.Blind ∧ closing.Blind
  | .untilMatch terminator element => terminator.Blind ∧ element.Blind
  | .untilEnd element => element.Blind
  | .binary operand _ => operand.Blind
  | .inline rule => rule.Blind
  | .script request parts => request.Blind ∧ Segment.AllBlind parts

def Segment.Blind : Segment → Prop
  | ⟨shape, _⟩ => shape.Blind

def Segment.AllBlind : List Segment → Prop
  | [] => True
  | s :: rest => s.Blind ∧ Segment.AllBlind rest

/-- Values that say the same are converted to values that say the same. -/
def Rule.Blind : Rule → Prop
  | ⟨_, _, segments, _, convert⟩ =>
    Segment.AllBlind segments ∧
      ∀ v w : Value, v.unplaced = w.unplaced → (convert v).unplaced = (convert w).unplaced

end

def Grammar.Blind (grammar : Grammar) : Prop := ∀ rule ∈ grammar.rules, rule.Blind

theorem Segment.AllBlind.blind {segments : List Segment} (h : Segment.AllBlind segments)
    {s : Segment} (hs : s ∈ segments) : s.Blind := by
  induction segments with
  | nil => cases hs
  | cons s' rest ih =>
    rcases List.mem_cons.1 hs with rfl | hs
    · exact h.1
    · exact ih h.2 hs

/-! ## Errors of runs -/

variable {x y : Tokenized}

/-- The stream stands at one of the places of the text. -/
def Tokenized.Placed (x : Tokenized) (s : Stream x.lexer) : Prop :=
  ∃ k, s.StandsAt (x.place k)

instance : Closed x.Placed where
  look := fun ⟨_, h⟩ => by
    obtain ⟨s', hp, hs⟩ := Tokenized.peek_at h
    rw [hp]
    exact ⟨_, hs⟩
  take := fun ⟨_, h⟩ => by
    obtain ⟨s', hp, hs⟩ := Tokenized.next_at h
    rw [hp]
    exact ⟨_, hs⟩
  back := fun ⟨_, hs⟩ ⟨k, ht⟩ => ⟨k, Tokenized.returnTo_at ht hs⟩
  nest := fun ⟨k, h⟩ d => ⟨k, h.atDepth d⟩
  note := fun ⟨k, h⟩ e => ⟨k, h.record e⟩

/-- An error leaves the stream where the look at the first token has led. -/
def Tokenized.Returns (x : Tokenized) (p : Parse x.lexer Outcome) : Prop :=
  ∀ k s e s', s.StandsAt (x.place k) → p s = .error (.error e) s' → s'.StandsAt (x.place (x.seen k))

theorem Tokenized.returns_runWithin (grammar : Grammar) (levels : Nat) (segment : Segment) :
    x.Returns (segment.runWithin grammar levels) := by
  intro k s e s' hs h
  obtain ⟨p, seen, hposition, hseen⟩ := Tokenized.position_at (hs.atDepth (s.depth + 1))
  cases levels with
  | zero =>
    rw [Segment.runWithin_zero, deeper_apply, tooDeep, bind_apply, position_apply, hposition] at h
    cases h
    exact hseen.atDepth _
  | succ levels =>
    rw [Segment.runWithin_succ, deeper_apply, attempt_apply, hposition] at h
    have hbefore := hseen.record (.entered (segment.options.label.getD "<segment>") seen.depth p)
    have hbody : Keeps x.Placed (segment.shape.body grammar (Segment.runWithin grammar levels)) :=
      keeps_body (Segment.keeps_runWithin grammar levels) grammar _
    obtain ⟨⟨j, hbehind⟩, -⟩ := hbody _ ⟨_, hbefore⟩
    simp only [settled] at h
    generalize seen.record _ = before at h hbefore hbehind
    cases hb : segment.shape.body grammar (Segment.runWithin grammar levels) before with
    | error e behind =>
      rw [hb] at h hbehind
      cases h
      exact (Tokenized.returnTo_at hbefore hbehind).atDepth _
    | ok o behind =>
      rw [hb] at h
      cases hv : o.verdict <;> simp only [hv] at h <;> cases h

/-- The runs go in lockstep from every place, and an error undoes what they have read. -/
structure RunAlike (x y : Tokenized) (p : Parse x.lexer Outcome) (q : Parse y.lexer Outcome) :
    Prop where
  paired : Paired x y p q
  left : x.Returns p
  right : y.Returns q

/-! ## Scripts -/

/-- What scripts are told of runs that began at the place `k` and came to the place `j`. -/
inductive ToldAlike (x y : Tokenized) (k j : Nat) :
    Except ParseError Outcome → Except ParseError Outcome → Prop
  | matched {o o' : Outcome} (hm : o.isMatch = true) (hm' : o'.isMatch = true)
    (alike : o.unplaced = o'.unplaced) (le : k ≤ j) : ToldAlike x y k j (.ok o) (.ok o')
  | failed {o o' : Outcome} (hm : o.isMatch = false) (h : Ran x y k j o o') :
    ToldAlike x y k j (.ok o) (.ok o')
  | refused {e e' : ParseError} (h : e.unplaced = e'.unplaced) (back : j = x.seen k) :
    ToldAlike x y k j (.error e) (.error e')

theorem Ran.told {k j : Nat} {o o' : Outcome} (h : Ran x y k j o o') (hk : k ≤ x.count + 1) :
    ToldAlike x y k j (.ok o) (.ok o') := by
  cases hm : o.isMatch with
  | true => exact .matched hm (h.isMatch_eq.trans hm) h.alike (h.start_le hk)
  | false => exact .failed hm h

theorem lockstep_told (hxy : x.Alike y) {p : Parse x.lexer Outcome} {q : Parse y.lexer Outcome}
    (h : RunAlike x y p q) {k : Nat} (hk : k ≤ x.count + 1) :
    Lockstep x y k (outcomeOf p) (outcomeOf q) (ToldAlike x y k) := by
  intro s t hl
  rcases h.paired k s t hl with ⟨o, s', o', t', j, hp, hq, hl', hran⟩ | ⟨e, s', e', t', hp, hq, he⟩
  · refine Or.inl ⟨.ok o, s', .ok o', t', j, ?_, ?_, hl', hran.told hk⟩
    · rw [outcomeOf, hp]
    · rw [outcomeOf, hq]
  · cases e with
    | endless =>
      cases e' with
      | error e' => cases he
      | endless =>
        refine Or.inr ⟨.endless, s', .endless, t', ?_, ?_, rfl⟩
        · rw [outcomeOf, hp]
        · rw [outcomeOf, hq]
    | error e =>
      cases e' with
      | endless => cases he
      | error e' =>
        have hs : s'.StandsAt (x.place (x.seen k)) := h.left k s e s' hl.left hp
        have ht : t'.StandsAt (y.place (y.seen k)) := h.right k t e' t' hl.right hq
        rw [← hxy.seen_eq] at ht
        refine Or.inl ⟨.error e, s', .error e', t', x.seen k, ?_, ?_, ⟨x.seen_le, hs, ht⟩,
          .refused (Stop.error.inj he) rfl⟩
        · rw [outcomeOf, hp]
        · rw [outcomeOf, hq]

theorem lockstep_outcomeOf (hxy : x.Alike y) {runs : List (Parse x.lexer Outcome)}
    {runs' : List (Parse y.lexer Outcome)} (h : List.Forall₂ (RunAlike x y) runs runs') (i : Nat)
    {k : Nat} (hk : k ≤ x.count + 1) :
    Lockstep x y k (outcomeOf (runs.getD i (pure .success)))
      (outcomeOf (runs'.getD i (pure .success))) (ToldAlike x y k) := by
  induction h generalizing i with
  | nil => exact lockstep_pure (.matched rfl rfl rfl (Nat.le_refl k))
  | cons h _ ih =>
    cases i with
    | zero => exact lockstep_told hxy h hk
    | succ i => exact ih i

/-- The checkpoints were saved at the same places, none before `k`. -/
def SavedAlike (x y : Tokenized) (k : Nat) (saved saved' : List Checkpoint) : Prop :=
  ∀ slot : Nat, (saved[slot]? = none ∧ saved'[slot]? = none) ∨
    ∃ j s t, k ≤ j ∧ Level x y j s t ∧ saved[slot]? = some s.checkpoint ∧
      saved'[slot]? = some t.checkpoint

theorem savedAlike_nil (x y : Tokenized) (k : Nat) : SavedAlike x y k [] [] :=
  fun _ => Or.inl ⟨rfl, rfl⟩

theorem SavedAlike.cons {k j : Nat} {saved saved' : List Checkpoint} {s : Stream x.lexer}
    {t : Stream y.lexer} (h : SavedAlike x y k saved saved') (hl : Level x y j s t) (hk : k ≤ j) :
    SavedAlike x y k (s.checkpoint :: saved) (t.checkpoint :: saved') := by
  intro slot
  cases slot with
  | zero => exact Or.inr ⟨j, s, t, hk, hl, rfl, rfl⟩
  | succ slot => exact h slot

/-- What the scripts hold on to are failures of runs side by side. -/
def HeldAlike (x y : Tokenized) (held : List (Outcome × Outcome)) : Prop :=
  ∀ o o', (o, o') ∈ held → o.isMatch = false ∧ ∃ i j, Ran x y i j o o'

/-- A failure that was held on to is handed on where the stream has looked. -/
theorem Ran.handed {i i' j k : Nat} {o o' : Outcome} (h : Ran x y i i' o o')
    (hm : o.isMatch = false) (hkj : k ≤ j) (hj : x.Looked j) : Done x y k j o o' := by
  cases h with
  | matched hm' => rw [hm] at hm'; cases hm'
  | failed _ hm' alike _ r _ looked reached reached' =>
    exact .passed hm hm' alike hkj r (.inr hj) looked reached reached'

/-- Scripts that come to the same go in lockstep. -/
theorem lockstep_script (hxy : x.Alike y) {runs : List (Parse x.lexer Outcome)}
    {runs' : List (Parse y.lexer Outcome)} (hruns : List.Forall₂ (RunAlike x y) runs runs')
    (depthLimit : Nat) {looked : Bool} {held : List (Outcome × Outcome)} {script script' : Script}
    (h : Script.Alike looked held script script') (hheld : HeldAlike x y held) {k j : Nat}
    {saved saved' : List Checkpoint} (hsaved : SavedAlike x y k saved saved') (hkj : k ≤ j)
    (hj : j ≤ x.count + 1) (hlooked : looked = true → x.Looked j) :
    Lockstep x y j (script.run depthLimit runs saved) (script'.run depthLimit runs' saved')
      (Done x y k) := by
  induction h generalizing j saved saved' with
  | matched hm hm' h => exact lockstep_pure (.matched hm hm' h hkj)
  | failed hm hm' h reached reached' =>
    exact lockstep_pure (.noticed hm hm' h hkj (hlooked rfl) reached reached')
  | handed h =>
    obtain ⟨hm, i, i', hran⟩ := hheld _ _ h
    exact lockstep_pure (hran.handed hm hkj (hlooked rfl))
  | abort h => exact lockstep_refuse h
  | peek _ ih =>
    refine (readAlike_peek hxy j).answerOf.bind ?_
    rintro _ _ _ - ⟨a, b, rfl, rfl, rfl, hab, -⟩
    exact ih a b hab hheld hsaved (Nat.le_trans hkj (x.le_seen hj)) x.seen_le fun _ => x.looked_seen
  | next _ ih =>
    refine (readAlike_next hxy j).answerOf.bind ?_
    rintro _ _ _ - ⟨a, b, rfl, rfl, rfl, hab⟩
    exact ih a b hab hheld hsaved (by omega) (by omega) fun h => nomatch h
  | position _ ih =>
    refine (readAlike_position hxy j).answerOf.bind ?_
    rintro _ _ _ - ⟨p, q, rfl, rfl, rfl⟩
    exact ih p q hheld hsaved (Nat.le_trans hkj (x.le_seen hj)) x.seen_le fun _ => x.looked_seen
  | offset _ ih | lastEnd _ ih | depth _ ih | text _ ih | unmoved _ ih =>
    exact lockstep_get_bind fun s t _ => ih _ _ hheld hsaved hkj hj hlooked
  | save _ ih =>
    exact lockstep_get_bind fun s t hl => ih hheld (hsaved.cons hl hkj) hkj hj hlooked
  | @restore looked held slot f g _ ih =>
    simp only [Script.run]
    rcases hsaved slot with ⟨hs, ht⟩ | ⟨i, s, t, hki, hl, hs, ht⟩
    · rw [hs, ht]
      exact ih hheld hsaved hkj hj fun h => nomatch h
    · rw [hs, ht]
      refine lockstep_modify_bind (fun s' t' hl' => hl.returnTo hl') ?_
      exact ih hheld hsaved hki hl.le fun h => nomatch h
  | @call looked held part f g _ _ _ ihmatched ihfailed ihrefused =>
    refine (lockstep_outcomeOf hxy hruns part hj).bind fun i a b hi h => ?_
    cases h with
    | matched hm hm' alike hle =>
      exact ihmatched _ _ hm hm' alike hheld hsaved (Nat.le_trans hkj hle) hi fun h => nomatch h
    | @failed o o' hm hran =>
      have hle := hran.start_le hj
      refine ihfailed o o' hm (hran.isMatch_eq.trans hm) hran.alike (fun p p' hp => ?_) hsaved
        (Nat.le_trans hkj hle) hi fun _ => ?_
      · rcases List.mem_cons.1 hp with hp | hp
        · cases hp
          exact ⟨hm, _, _, hran⟩
        · exact hheld p p' hp
      · rw [hran.back hm]
        exact x.looked_seen
    | refused he hback =>
      subst hback
      exact ihrefused _ _ he hheld hsaved (Nat.le_trans hkj (x.le_seen hj)) hi
        fun _ => x.looked_seen
  | limit _ ih => exact ih depthLimit hheld hsaved hkj hj hlooked

/-! ## Segments -/

section

variable (hxy : x.Alike y) {grammar : Grammar} (hgrammar : grammar.Blind)
include hxy hgrammar

/-- What a shape does goes in lockstep, if the runs inside do. -/
theorem lockstep_body {run : Runner x.lexer} {run' : Runner y.lexer}
    (hrun : ∀ s : Segment, s.Blind → Paired x y (run s) (run' s))
    (hleft : ∀ s, x.Returns (run s)) (hright : ∀ s, y.Returns (run' s)) {shape : Shape}
    (hs : shape.Blind) {k : Nat} (hk : x.Looked k) :
    Lockstep x y k (shape.body grammar run) (shape.body grammar run') (Done x y k) := by
  cases shape with
  | exact kind text =>
    exact lockstep_tokenBody hxy hk _ (fun t u h => Token.is_eq_of_content h kind text)
      (fun _ => rfl) fun _ _ _ => rfl
  | ofKind kind =>
    refine lockstep_tokenBody hxy hk _ (fun t u h => ?_) (fun _ => rfl) fun t u h => ?_
    · injection h with hk
      rw [hk]
    · injection h with _ hv
      rw [hv]
  | leaf kind =>
    refine lockstep_tokenBody hxy hk _ (fun t u h => ?_) (fun _ => rfl) fun t u h => ?_
    · injection h with hk
      rw [hk]
    · simp only [Outcome.withData, Outcome.unplaced, Option.map_some, unplaced_leafNode h]
  | possibly kind text => exact lockstep_possiblyBody hxy hk kind text
  | nothing => exact lockstep_pure (.matched rfl rfl rfl (Nat.le_refl k))
  | fail message =>
    refine (readAlike_position hxy k).ofPull.bind ?_
    rintro _ p q - rfl
    rw [x.seen_of_looked hk]
    exact lockstep_pure (.noticed rfl rfl rfl (Nat.le_refl k) hk rfl rfl)
  | reference name =>
    simp only [Shape.body]
    cases hf : grammar.find? name with
    | none => exact lockstep_refuse rfl
    | some rule =>
      have hrule : rule.toSegment.Blind := hgrammar rule (Grammar.mem_of_find? hf).1
      exact (hrun _ hrule k).mono fun j o o' hj h => h.done hk.1 (Nat.le_refl k)
  | optional s => exact lockstep_optionalBody hk (hrun s hs)
  | choice alternatives =>
    exact lockstep_choiceBody hxy hk alternatives trivial fun s h => hrun s (hs.blind h)
  | delimited opening closing separator element =>
    obtain ⟨ho, hc, hsep, he⟩ := hs
    exact lockstep_delimitedBody (hrun _ he) (hrun _ hsep) hxy hk (hrun _ ho) (hrun _ hc)
  | between opening content closing =>
    obtain ⟨ho, hi, hc⟩ := hs
    exact lockstep_betweenBody hk (hrun _ ho) (hrun _ hi) (hrun _ hc)
  | untilMatch terminator element =>
    obtain ⟨ht, he⟩ := hs
    exact lockstep_untilMatchBody hxy (hrun _ he) hk (hrun _ ht)
  | untilEnd element => exact lockstep_untilEndBody hxy (hrun _ hs) hk
  | binary operand tiers => exact lockstep_binaryBody hxy (hrun _ hs) tiers hk.1
  | inline rule =>
    obtain ⟨name, kind, segments, nesting, convert⟩ := rule
    obtain ⟨hsegments, hconvert⟩ := hs
    exact lockstep_ruleBody hk hconvert fun s h => hrun s (hsegments.blind h)
  | script request parts =>
    obtain ⟨hrequest, hparts⟩ := hs
    have hruns : List.Forall₂ (RunAlike x y) (parts.map run) (parts.map run') := by
      rw [List.forall₂_map_left_iff, List.forall₂_map_right_iff]
      exact List.forall₂_same.2 fun p hp => ⟨hrun p (hparts.blind hp), hleft p, hright p⟩
    exact lockstep_script hxy hruns _ hrequest (fun _ _ h => absurd h List.not_mem_nil)
      (savedAlike_nil x y k) (Nat.le_refl k) hk.1 fun _ => hk

/-- Every segment goes in lockstep, at every depth. -/
theorem lockstep_runWithin (levels : Nat) {s : Segment} (hs : s.Blind) :
    Paired x y (Segment.runWithin grammar levels s) (Segment.runWithin grammar levels s) := by
  induction levels generalizing s with
  | zero =>
    intro k
    refine Lockstep.deeper ((readAlike_position hxy k).ofPull.bind ?_)
    rintro j p q - -
    exact lockstep_refuse rfl
  | succ levels ih =>
    intro k
    obtain ⟨shape, options⟩ := s
    have hshape : shape.Blind := hs
    exact Lockstep.deeper (lockstep_attempt hxy options
      (lockstep_body hxy hgrammar (fun s hs => ih hs)
        (fun s => x.returns_runWithin grammar levels s)
        (fun s => y.returns_runWithin grammar levels s) hshape x.looked_seen))

end

/-! ## Parses -/

/-- What a parse comes to, without places: the value without spans, or the error at no position. -/
def parsed {lexer : Lexer} : EStateM.Result Stop (Stream lexer) Value → Except Stop Value
  | .ok v _ => .ok v.bare
  | .error e _ => .error e.unplaced

theorem Value.bare_eq_of_unplaced {v w : Value} (h : v.unplaced = w.unplaced) :
    v.bare = w.bare := by
  rw [← bare_unplaced v, h, bare_unplaced]

theorem lockstep_concluded (hxy : x.Alike y) (root : String) {k j : Nat} {o o' : Outcome}
    (h : Ran x y k j o o') :
    Lockstep x y j (concluded root o) (concluded root o') fun _ v w => v.bare = w.bare := by
  unfold concluded
  rw [h.isMatch_eq]
  split
  · exact lockstep_pure (Value.bare_eq_of_unplaced (unplaced_getD h.alike))
  · next hm =>
    refine (lockstep_complaint hxy j h.alike (by simpa using hm)).bind fun i e e' _ he => ?_
    refine lockstep_modify_bind (fun s t hl => hl.record _ _) ?_
    exact lockstep_refuse he

section

variable (hxy : x.Alike y) {grammar : Grammar} (hgrammar : grammar.Blind) {k : Nat}
  {s : Stream x.lexer} {t : Stream y.lexer}
include hxy hgrammar

/-- On streams that are equally deep the root comes to the same, or ends with errors that say the
same. -/
theorem runRoot_alike {rule : Rule} (hrule : rule.Blind) (hl : Level x y k s t)
    (hdepth : s.depth = t.depth) :
    (∃ o s' o' t' j, grammar.runRoot rule s = .ok o s' ∧ grammar.runRoot rule t = .ok o' t' ∧
      Level x y j s' t' ∧ Ran x y k j o o') ∨
    ∃ e s' e' t', grammar.runRoot rule s = .error e s' ∧ grammar.runRoot rule t = .error e' t' ∧
      e.unplaced = e'.unplaced := by
  have hsegment : rule.toSegment.Blind := hrule
  have hrun := lockstep_runWithin hxy hgrammar (grammar.maxDepth - s.depth) hsegment k s t hl
  unfold Grammar.runRoot
  rw [Rule.run_eq, Rule.run_eq]
  unfold Segment.run
  rw [← hdepth]
  rcases hrun with ⟨o, s', o', t', j, hp, hq, hl', h⟩ | ⟨e, s', e', t', hp, hq, he⟩
  · rw [hp, hq]
    exact Or.inl ⟨o, s', o', t', j, rfl, rfl, hl', h⟩
  · rw [hp, hq]
    right
    cases e with
    | error e =>
      cases e' with
      | error e' => exact ⟨_, _, _, _, rfl, rfl, he⟩
      | endless => cases he
    | endless =>
      cases e' with
      | error e' => cases he
      | endless => exact ⟨_, _, _, _, rfl, rfl, he⟩

theorem parsed_parse (root : String) (hl : Level x y k s t) (hdepth : s.depth = t.depth) :
    parsed (grammar.parse root s) = parsed (grammar.parse root t) := by
  cases hf : grammar.find? root with
  | none =>
    unfold Grammar.parse
    rw [hf]
    rfl
  | some rule =>
    have hrule : rule.Blind := hgrammar rule (Grammar.mem_of_find? hf).1
    rw [parse_of_find? hf, parse_of_find? hf, bind_apply, bind_apply]
    rcases runRoot_alike hxy hgrammar hrule (hl.record (.parsing root) (.parsing root)) hdepth with
      ⟨o, s', o', t', j, hp, hq, hl', h⟩ | ⟨e, s', e', t', hp, hq, he⟩
    · rw [hp, hq]
      simp only
      rcases lockstep_concluded hxy root h s' t' hl' with
        ⟨v, _, w, _, _, hv, hw, -, hvw⟩ | ⟨e, _, e', _, hv, hw, he⟩
      · rw [hv, hw]
        exact congrArg Except.ok hvw
      · rw [hv, hw]
        exact congrArg Except.error he
    · rw [hp, hq]
      exact congrArg Except.error he

end

/-- Two texts with the same tokens are parsed to the same value, spans aside, or to errors that say
the same, positions aside. Tokens are the same if messages show them the same, so the two zeros are
told apart here. -/
theorem parse_layout {grammar : Grammar} (hblind : grammar.Blind) {lexer lexer' : Lexer}
    {text text' : String} {tokens tokens' : List Token}
    (h : lexer.tokenize text = .ok tokens) (h' : lexer'.tokenize text' = .ok tokens')
    (hsame : tokens.map Token.content = tokens'.map Token.content) (root : String) :
    parsed (grammar.parseText lexer root text) = parsed (grammar.parseText lexer' root text') := by
  have hxy : (Tokenized.ofTokenize h).Alike (Tokenized.ofTokenize h') := hsame
  have hstart : Level (Tokenized.ofTokenize h) (Tokenized.ofTokenize h') 0
      (Stream.ofString text) (Stream.ofString text') :=
    ⟨Nat.zero_le _, standsAt_ofString text, standsAt_ofString text'⟩
  exact parsed_parse hxy hblind root hstart rfl

/-- Reads a token and fails. -/
def stumble : Script :=
  .next fun _ => .position fun
    | .ok p => .finish (.failure p "gave up")
    | .error e => .abort (.reading e)

theorem blind_stumble : stumble.Blind :=
  .next fun _ _ _ => .position fun _ _ => .failed rfl rfl rfl rfl rfl

/-- Runs a segment and hands on what it comes to. -/
def relay : Script :=
  .call 0 fun
    | .ok o => .finish o
    | .error e => .abort e

theorem blind_relay : relay.Blind :=
  .call (fun _ _ hm hm' h => .matched hm hm' h) (fun _ _ _ _ _ => .handed List.mem_cons_self)
    fun _ _ h => .abort h

/-- Pairs of words, or single words, up to the end of the text. -/
def wordPairs : Grammar where
  rules := [
    { name := "text", kind := some "text", segments := [
        .untilEnd (.choice [.script stumble, .script relay [.reference "pair"], .leaf "word"])] },
    { name := "pair", kind := some "pair", segments := [
        .keyed (.leaf "word") "first", .keyed (.leaf "word") "second"] }]

theorem blind_wordPairs : wordPairs.Blind := by
  intro rule hrule
  rcases List.mem_cons.1 hrule with rfl | hrule
  · exact ⟨⟨⟨⟨blind_stumble, trivial⟩, ⟨blind_relay, trivial, trivial⟩, trivial, trivial⟩, trivial⟩,
      fun _ _ h => h⟩
  · rcases List.mem_singleton.1 hrule with rfl
    exact ⟨⟨trivial, trivial, trivial⟩, fun _ _ h => h⟩

/-- The word of one letter at this offset in the first line. -/
def letterAt (i : Nat) : Token :=
  ⟨"word", .text "a", ⟨⟨i, 1, i + 1⟩, ⟨i + 1, 1, i + 2⟩⟩⟩

/-- Three words are a pair and a word, however they are set. -/
theorem parse_layout_wordPairs :
    wordPairs.Blind ∧ wordsAndBlanks.tokenize "a a a" = .ok ([0, 2, 4].map letterAt) ∧
      wordsAndBlanks.tokenize "  a a  a " = .ok ([2, 4, 7].map letterAt) ∧
      ([0, 2, 4].map letterAt).map Token.content = ([2, 4, 7].map letterAt).map Token.content ∧
      parsed (wordPairs.parseText wordsAndBlanks "text" "a a a") =
        parsed (wordPairs.parseText wordsAndBlanks "text" "  a a  a ") := by
  have h : wordsAndBlanks.tokenize "a a a" = .ok ([0, 2, 4].map letterAt) := rfl
  have h' : wordsAndBlanks.tokenize "  a a  a " = .ok ([2, 4, 7].map letterAt) := rfl
  exact ⟨blind_wordPairs, h, h', rfl, parse_layout blind_wordPairs h h' rfl "text"⟩

/-- Takes a token and fails, without a look at what comes next. -/
def hasty : Script :=
  .next fun
    | .ok _ => .finish (.failure .start "A")
    | .error e => .abort (.reading e)

def hastyOrTwo : Grammar where
  rules := [{ name := "text", segments := [.choice [.script hasty, twoWords.toSegment]] }]

/-- Finds the whole text. -/
def reciter : Script := .text fun t => .finish (.withData (.text t))

def reciting : Grammar where
  rules := [{ name := "text", segments := [.script reciter] }]

/-- The two zeros, as numbers. -/
def zeros : Lexer where
  forms := [⟨"number", [.literals ["0", "-0"]], [.number]⟩]

def zeroAt (x : Float) (length : Nat) : Token :=
  ⟨"number", .number x, ⟨.start, ⟨length, 1, length + 1⟩⟩⟩

def wordOnly : Grammar where
  rules := [{ name := "text", segments := [.ofKind "word"] }]

/-- The message of a parse that found a mismatch. -/
def complaintOf : Except Stop Value → Option String
  | .error (.error (.mismatch _ detail)) => some detail
  | _ => none

/-- A script that asks for no places, but fails where it has not looked, lets a blank decide which
failure came furthest. A script that asks for the text has the blanks in it. And the message about
one zero is not the message about the other, although the two are equal as numbers. -/
theorem layout_shows :
    (wordsAndBlanks.tokenize "a" = .ok [letterAt 0] ∧
      wordsAndBlanks.tokenize "a " = .ok [letterAt 0] ∧
      complaintOf (parsed (hastyOrTwo.parseText wordsAndBlanks "text" "a")) = some "A" ∧
      complaintOf (parsed (hastyOrTwo.parseText wordsAndBlanks "text" "a ")) =
        some "Expected word but reached end of input" ∧
      parsed (reciting.parseText wordsAndBlanks "text" "a") = .ok (.text "a") ∧
      parsed (reciting.parseText wordsAndBlanks "text" "a ") = .ok (.text "a ")) ∧
    (zeros.tokenize "0" = .ok [zeroAt 0 1] ∧ zeros.tokenize "-0" = .ok [zeroAt (-0) 2] ∧
      (Value.number 0).same (.number (-0)) = true ∧
      complaintOf (parsed (wordOnly.parseText zeros "text" "0")) =
        some "Expected word but got number 0" ∧
      complaintOf (parsed (wordOnly.parseText zeros "text" "-0")) =
        some "Expected word but got number -0") :=
  ⟨⟨rfl, rfl, by decide +kernel, by decide +kernel, rfl, rfl⟩,
    ⟨rfl, rfl, by decide +kernel, by decide +kernel, by decide +kernel⟩⟩

end Descent
