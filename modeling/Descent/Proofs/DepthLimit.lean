import Descent.Proofs.Agreement
import Descent.Proofs.Layout

/-!
# The depth limit

A run with fewer levels left does what a run with more of them does, unless it ends too deep: the
number of levels left is asked for nowhere but where it is used up, and no combinator takes the
error back. So a greater limit changes nothing but parses that end too deep, if no script does what
the combinators do not do (`Script.Unlimited`). Under a limit no segment begins beyond it, so what
would nest further ends too deep.

* `follows_runWithin`: fewer levels against more of them.
* `parse_of_limit_le`: the parse under a limit against the parse under a greater one.
* `limit_shows`: what scripts make of the limit if they handle the error or ask for it.
* `within_parse`: no segment begins beyond the limit.
* `tooDeep_of_beyond`: a parse that nests further under some other limit ends too deep under this
  one.
-/
namespace Descent

open Descent.Stream

variable {lexer : Lexer} {α : Type}

/-- The reason is that the nesting goes too deep. -/
def Stop.TooDeep (e : Stop) : Prop := ∃ p limit, e = .error (.tooDeep p limit)

/-- The result is that the nesting goes too deep. -/
def EndsTooDeep (r : EStateM.Result Stop (Stream lexer) α) : Prop :=
  ∃ e s, r = .error e s ∧ e.TooDeep

/-- Is the result that the nesting goes too deep? -/
def tooDeep? : EStateM.Result Stop (Stream lexer) α → Bool
  | .error (.error (.tooDeep _ _)) _ => true
  | _ => false

theorem endsTooDeep_iff (r : EStateM.Result Stop (Stream lexer) α) :
    EndsTooDeep r ↔ tooDeep? r = true := by
  constructor
  · rintro ⟨-, s, rfl, p, limit, rfl⟩
    rfl
  · intro h
    unfold tooDeep? at h
    split at h
    · exact ⟨_, _, rfl, _, _, rfl⟩
    · cases h

instance (r : EStateM.Result Stop (Stream lexer) α) : Decidable (EndsTooDeep r) :=
  decidable_of_iff _ (endsTooDeep_iff r).symm

/-- The same rules under another limit. -/
def Grammar.limited (grammar : Grammar) (limit : Nat) : Grammar :=
  { grammar with maxDepth := limit }

/-! ## Two limits -/

/-- What has no level left ends too deep, unless it can not even look. -/
theorem mirrors_tooDeep [Coupling (E : Stream lexer → Stream lexer → Prop)] (limit : Nat)
    (f : Position → Parse lexer Outcome) :
    Mirrors E Stop.TooDeep (tooDeep limit) (Parse.position >>= f) :=
  mirrors_position.bind fun p _ _ _ => .stopped _ ⟨p, limit, rfl⟩

/-- The script does not ask for the limit, and passes it on that a segment nests too deep. -/
def Script.Unlimited (script : Script) : Prop :=
  script.Forthright (fun e => Stop.TooDeep (.error e)) False

/-- A run with fewer levels left does what a run with more levels left does, or ends too deep. -/
theorem follows_runWithin {grammar grammar' : Grammar}
    (hgrammar : grammar.Throughout (Shape.ScriptIn Script.Unlimited))
    (hfind : ∀ name, grammar.find? name = grammar'.find? name) {levels levels' : Nat}
    (hle : levels ≤ levels') {s : Segment} (hs : s.Throughout (Shape.ScriptIn Script.Unlimited)) :
    Follows (fun _ : Stream lexer => True) Stop.TooDeep (s.runWithin grammar levels)
      (s.runWithin grammar' levels') := by
  induction levels generalizing levels' s with
  | zero =>
    -- Whatever the other run goes on to do, it looks at its first token too.
    have hrefuse (x : Position → Parse lexer Outcome) : Follows (fun _ => True) Stop.TooDeep
        (tooDeep grammar.maxDepth) (Parse.position >>= x) :=
      .of_mirrors (keeps_bind keeps_position fun _ => keeps_refuse _) (mirrors_tooDeep _ x)
    cases levels' with
    | zero => exact follows_deeper (hrefuse _)
    | succ levels' => exact follows_deeper (hrefuse _)
  | succ levels ih =>
    cases levels' with
    | zero => omega
    | succ levels' =>
      have hscript : s.shape.ScriptIn (Script.Forthright (fun e => Stop.TooDeep (.error e))
          (grammar.maxDepth = grammar'.maxDepth)) :=
        hs.shape.mono fun _ h => Script.Forthright.mono h False.elim
      exact follows_deeper (follows_attempt _
        (follows_body (Segment.keeps_runWithin grammar levels) (fun p hp => ih (by omega) hp) hfind
          (fun _ _ hf => hgrammar.find? hf) hscript fun _ hp => hs.part hp))

section

variable {grammar : Grammar} (hgrammar : grammar.Throughout (Shape.ScriptIn Script.Unlimited))
include hgrammar

theorem follows_parse_of_limit_le {d d' : Nat} (h : d ≤ d') (root : String) :
    Follows (fun _ : Stream lexer => True) Stop.TooDeep ((grammar.limited d).parse root)
      ((grammar.limited d').parse root) := by
  have hlimited : (grammar.limited d).Throughout (Shape.ScriptIn Script.Unlimited) := hgrammar
  have hfind (name : String) : (grammar.limited d).find? name = (grammar.limited d').find? name :=
    rfl
  have hrun (name : String) (rule : Rule) (hf : (grammar.limited d).find? name = some rule) :
      Follows (fun _ : Stream lexer => True) Stop.TooDeep (rule.run (grammar.limited d))
        (rule.run (grammar.limited d')) := by
    refine ⟨Rule.keeps_run _ rule, fun s _ => ?_⟩
    rw [Rule.run_eq, Rule.run_eq]
    exact (follows_runWithin hlimited hfind (Nat.sub_le_sub_right h s.depth)
      (hlimited.find? hf)).agrees s trivial
  exact follows_parse (Rule.keeps_run _) hfind hrun root

/-- A parse that does not end too deep under a limit ends in the same under any greater limit: with
the same value or the same error, its position included, on the same stream and with the same
events. So a parse that ends too deep under the greater limit ends too deep under the smaller. This
holds of all grammars in which no script asks for the limit or goes on behind a segment that nests
too deep. -/
theorem parse_of_limit_le (root : String) {d d' : Nat} (h : d ≤ d') (s : Stream lexer) :
    (¬ EndsTooDeep ((grammar.limited d).parse root s) →
      (grammar.limited d').parse root s = (grammar.limited d).parse root s) ∧
    (EndsTooDeep ((grammar.limited d').parse root s) →
      EndsTooDeep ((grammar.limited d).parse root s)) := by
  have hsame : ¬ EndsTooDeep ((grammar.limited d).parse root s) →
      (grammar.limited d').parse root s = (grammar.limited d).parse root s := by
    intro hd
    rcases (follows_parse_of_limit_le hgrammar h root).agrees s trivial with he | ⟨e, s', he, hP⟩
    · exact he.symm
    · exact absurd ⟨e, s', he, hP⟩ hd
  refine ⟨hsame, fun hd' => ?_⟩
  by_cases hd : EndsTooDeep ((grammar.limited d).parse root s)
  · exact hd
  · rwa [hsame hd] at hd'

end

theorem unlimited_wordPairs : wordPairs.Throughout (Shape.ScriptIn Script.Unlimited) := by
  have hstumble : stumble.Unlimited := by
    rintro _ (_ | _) <;> trivial
  have hrelay : relay.Unlimited := by
    refine ⟨fun _ _ => rfl, ?_⟩
    rintro (_ | _) <;> trivial
  have hleaf (s : Segment) (hs : s.shape = .leaf "word") :
      s.Throughout (Shape.ScriptIn Script.Unlimited) :=
    Segment.throughout_of_parts_eq_nil (by rw [hs]; rfl) (by rw [hs]; trivial)
  have hpair : (Segment.reference "pair").Throughout (Shape.ScriptIn Script.Unlimited) :=
    Segment.throughout_of_parts_eq_nil rfl trivial
  have hstuck : (Segment.script stumble).Throughout (Shape.ScriptIn Script.Unlimited) :=
    Segment.throughout_of_parts_eq_nil rfl hstumble
  have hrelayed : (Segment.script relay [.reference "pair"]).Throughout
      (Shape.ScriptIn Script.Unlimited) :=
    Segment.throughout_iff.2 ⟨hrelay, List.forall_mem_singleton.2 hpair⟩
  unfold Grammar.Throughout wordPairs
  rw [List.forall_mem_cons, List.forall_mem_singleton]
  refine ⟨Segment.throughout_iff.2 ⟨trivial, ?_⟩, Segment.throughout_iff.2 ⟨trivial, ?_⟩⟩
  · refine List.forall_mem_singleton.2 (Segment.throughout_iff.2 ⟨trivial, ?_⟩)
    refine List.forall_mem_singleton.2 (Segment.throughout_iff.2 ⟨trivial, ?_⟩)
    exact List.forall_mem_cons.2 ⟨hstuck, List.forall_mem_cons.2
      ⟨hrelayed, List.forall_mem_singleton.2 (hleaf _ rfl)⟩⟩
  · exact List.forall_mem_cons.2 ⟨hleaf _ rfl, List.forall_mem_singleton.2 (hleaf _ rfl)⟩

/-- Three words need seven levels, and more levels change nothing. -/
theorem parse_of_limit_le_wordPairs :
    EndsTooDeep ((wordPairs.limited 6).parseText wordsAndBlanks "text" "a a a") ∧
      wordPairs.Throughout (Shape.ScriptIn Script.Unlimited) ∧
      ¬ EndsTooDeep ((wordPairs.limited 7).parseText wordsAndBlanks "text" "a a a") ∧ 7 ≤ 256 ∧
      (wordPairs.limited 256).parseText wordsAndBlanks "text" "a a a" =
        (wordPairs.limited 7).parseText wordsAndBlanks "text" "a a a" := by
  have hfits : ¬ EndsTooDeep ((wordPairs.limited 7).parseText wordsAndBlanks "text" "a a a") := by
    decide +kernel
  exact ⟨by decide +kernel, unlimited_wordPairs, hfits, by decide,
    (parse_of_limit_le unlimited_wordPairs "text" (by decide) (Stream.ofString "a a a")).1 hfits⟩

/-- Runs a segment, and does without it where it nests too deep. -/
def daring : Script :=
  .call 0 fun
    | .ok o => .finish o
    | .error (.tooDeep _ _) => .finish .success
    | .error e => .abort e

/-- As many values as there may be levels. -/
def curious : Script := .limit fun n => .finish (.withData (.list (List.replicate n .null)))

def limitAware : Grammar where
  rules := [
    { name := "daring", segments := [.script daring [.leaf "word"]] },
    { name := "curious", segments := [.script curious] }]

/-- A script that goes on behind a segment that nests too deep finds a word under a limit of three
levels and does without it under a limit of two. A script that asks for the limit can tell it. -/
theorem limit_shows :
    (¬ ∀ (lexer : Lexer) (grammar : Grammar) (root : String) (d d' : Nat) (s : Stream lexer),
      d ≤ d' → ¬ EndsTooDeep ((grammar.limited d).parse root s) →
        (grammar.limited d').parse root s = (grammar.limited d).parse root s) ∧
    (parsed ((limitAware.limited 2).parseText wordsAndBlanks "daring" "a") = .ok .null ∧
      parsed ((limitAware.limited 3).parseText wordsAndBlanks "daring" "a") =
        .ok (leafNode (letterAt 0)).bare) ∧
    (parsed ((limitAware.limited 2).parseText wordsAndBlanks "curious" "a") =
        .ok (.list [.null, .null]) ∧
      parsed ((limitAware.limited 3).parseText wordsAndBlanks "curious" "a") =
        .ok (.list [.null, .null, .null])) := by
  have hcurious : parsed ((limitAware.limited 2).parseText wordsAndBlanks "curious" "a") =
      .ok (.list [.null, .null]) := rfl
  have hgreater : parsed ((limitAware.limited 3).parseText wordsAndBlanks "curious" "a") =
      .ok (.list [.null, .null, .null]) := rfl
  refine ⟨fun h => ?_, ⟨rfl, rfl⟩, hcurious, hgreater⟩
  have hsame := h wordsAndBlanks limitAware "curious" 2 3 (.ofString "a") (by decide)
    (by decide +kernel)
  rw [Grammar.parseText, hsame, ← Grammar.parseText, hcurious] at hgreater
  cases hgreater

/-! ## How deep a parse goes -/

/-- Is it no segment that begins beyond the limit? -/
def Event.within (limit : Nat) : Event → Bool
  | .entered _ depth _ => depth ≤ limit
  | _ => true

/-- No segment began beyond the limit. -/
def Stream.Within (limit : Nat) (s : Stream lexer) : Prop :=
  ∀ e ∈ s.journal, e.within limit = true

instance (limit : Nat) (s : Stream lexer) : Decidable (s.Within limit) :=
  inferInstanceAs (Decidable (∀ e ∈ s.journal, e.within limit = true))

theorem Event.within_of_le {limit depth : Nat} (h : depth ≤ limit) (label : String)
    (p : Position) : (Event.entered label depth p).within limit = true := decide_eq_true h

theorem Event.within_mono {limit limit' : Nat} (hle : limit ≤ limit') {e : Event}
    (h : e.within limit = true) : e.within limit' = true := by
  cases e with
  | entered label depth p => exact within_of_le (Nat.le_trans (of_decide_eq_true h) hle) label p
  | parsing root | token t | failed label depth progress message | refused root error => rfl

theorem Stream.Within.mono {limit limit' : Nat} {s : Stream lexer} (h : s.Within limit)
    (hle : limit ≤ limit') : s.Within limit' :=
  fun e he => Event.within_mono hle (h e he)

theorem Stream.Within.record {limit : Nat} {s : Stream lexer} (h : s.Within limit) {e : Event}
    (he : e.within limit = true) : (s.record e).Within limit :=
  List.forall_mem_cons.2 ⟨he, h⟩

theorem Stream.Within.remark {limit : Nat} {s : Stream lexer} (h : s.Within limit) {e : Event}
    (he : e.isEntry = false) : (s.record e).Within limit := by
  refine h.record ?_
  cases e with
  | entered label depth p => cases he
  | parsing root | token t | failed label depth progress message | refused root error => rfl

theorem Stream.Within.look {limit : Nat} {s : Stream lexer} (h : s.Within limit) :
    (stateOf (peek s)).Within limit := by
  unfold peek
  split
  · exact h
  · split
    · exact h
    · exact h
    · exact Stream.Within.remark (s := s.buffer _ _) h rfl
    · exact h

theorem journal_handOut (s : Stream lexer) : s.handOut.journal = s.journal := by
  unfold handOut; split <;> rfl

theorem Stream.Within.take {limit : Nat} {s : Stream lexer} (h : s.Within limit) :
    (stateOf (next s)).Within limit := by
  have hl := h.look
  rw [next_eq]
  cases hp : peek s with
  | ok t s' =>
    rw [hp] at hl
    unfold Stream.Within
    rw [stateOf, journal_handOut]
    exact hl
  | error e s' => rw [hp] at hl; exact hl

/-- At this depth, which the limit allows, and never beyond the limit. -/
structure Shallow (limit depth : Nat) (s : Stream lexer) : Prop where
  depth_eq : s.depth = depth
  le : depth ≤ limit
  within : s.Within limit

instance (limit depth : Nat) : Steady (Shallow limit depth : Stream lexer → Prop) where
  look h := ⟨(peek_frame _).2.trans h.depth_eq, h.le, h.within.look⟩
  take h := ⟨(depth_next _).trans h.depth_eq, h.le, h.within.take⟩
  back hs _ := ⟨hs.depth_eq, hs.le, hs.within⟩
  enter h label p := ⟨h.depth_eq, h.le,
    h.within.record (Event.within_of_le (h.depth_eq ▸ h.le) label p)⟩
  remark h _ he := ⟨h.depth_eq, h.le, h.within.remark he⟩

theorem stateOf_tooDeep (limit : Nat) (s : Stream lexer) :
    stateOf ((tooDeep limit : Parse lexer Outcome) s) = stateOf (peek s) := by
  rw [← stateOf_position, tooDeep, bind_apply, Parse.position, Parse.ofPull]
  cases Stream.position s <;> rfl

/-- With the levels left that the limit allows at this depth, no segment begins beyond the limit. -/
theorem shallow_runWithin (grammar : Grammar) {limit levels depth : Nat}
    (h : depth + levels ≤ limit) (s : Segment) :
    Keeps (Shallow limit depth) (s.runWithin grammar levels : Parse lexer Outcome) := by
  induction levels generalizing depth s with
  | zero =>
    refine keeps_deeper_of (J := Stream.Within limit) (fun s hs => ?_) (fun _ hs => hs.within)
      fun _ _ hs hs' _ => ⟨hs.depth_eq, hs.le, hs'⟩
    rw [stateOf_tooDeep]
    exact ⟨hs.look, (peek_frame s).2⟩
  | succ levels ih =>
    have hdeep (s : Segment) : Keeps (Shallow limit (depth + 1))
        (s.runWithin grammar levels : Parse lexer Outcome) := ih (by omega) s
    refine keeps_deeper_of (keeps_attempt s.options (keeps_body hdeep grammar s.shape))
      (fun s hs => ⟨congrArg (· + 1) hs.depth_eq, by omega, hs.within⟩)
      fun _ _ hs hs' _ => ⟨hs.depth_eq, hs.le, hs'.within⟩

/-- A parse of a text does not begin a segment beyond the limit. -/
theorem within_parse (grammar : Grammar) (root text : String) :
    (stateOf (grammar.parseText lexer root text)).Within grammar.maxDepth := by
  have hrun (rule : Rule) :
      Keeps (Shallow grammar.maxDepth 0) (rule.run grammar : Parse lexer Outcome) := by
    intro s hs
    rw [Rule.run_eq]
    refine shallow_runWithin grammar ?_ rule.toSegment s hs
    rw [hs.depth_eq]
    omega
  have hstart : Shallow grammar.maxDepth 0 (Stream.ofString text : Stream lexer) :=
    ⟨rfl, Nat.zero_le _, fun _ h => nomatch h⟩
  exact (keeps_parse hrun root _ hstart).1.within

/-- If a parse under any limit at all begins a segment beyond the limit `d`, then under the limit
`d` it ends too deep. -/
theorem tooDeep_of_beyond {grammar : Grammar}
    (hgrammar : grammar.Throughout (Shape.ScriptIn Script.Unlimited)) (root text : String)
    {d d' : Nat}
    (h : ¬ (stateOf ((grammar.limited d').parseText lexer root text)).Within d) :
    EndsTooDeep ((grammar.limited d).parseText lexer root text) := by
  have hd' : (stateOf ((grammar.limited d').parseText lexer root text)).Within d' :=
    within_parse (grammar.limited d') root text
  rcases Nat.le_total d d' with hle | hle
  · have hsame := (parse_of_limit_le hgrammar root hle (Stream.ofString text : Stream lexer)).1
    by_cases hd : EndsTooDeep ((grammar.limited d).parseText lexer root text)
    · exact hd
    · refine absurd ?_ h
      unfold Grammar.parseText
      rw [hsame hd]
      exact within_parse (grammar.limited d) root text
  · exact absurd (hd'.mono hle) h

end Descent
