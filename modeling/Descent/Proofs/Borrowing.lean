import Descent.Proofs.Backtracking
import Descent.Proofs.Climbing
import Descent.Proofs.Documents
import Descent.Proofs.Positions

/-!
# Positions that runs hand on

A run makes up no positions: those in the trees that it builds, in its failures and in its errors
are positions that its stream has given it. What is written by hand may do otherwise, so it has to
keep to this by itself: a conversion borrows its positions from what it converts, and a script from
the answers to its requests (`Borrows`).

* `heritable_placed`: combinators hand on the positions that they are given.
* `Survey.comesTo_script`: so do scripts that borrow their positions.
* `positions_trueIn`: all positions that come from runs and parses.
-/
namespace Descent

open Descent.Stream

/-! ## Positions in trees -/

/-- A node of the tree has a span that starts or stops here. -/
def Value.Mentions (v : Value) (p : Position) : Prop :=
  ∃ n : Node, n.Inside v ∧ ∃ span, n.span = some span ∧ (p = span.start ∨ p = span.stop)

/-- The ends of the node's span are positions of `P`. -/
def Node.Placed (P : Position → Prop) (n : Node) : Prop :=
  ∀ span, n.span = some span → P span.start ∧ P span.stop

variable {P : Position → Prop}

theorem Value.all_placed_iff {v : Value} : v.All (Node.Placed P) ↔ ∀ p, v.Mentions p → P p := by
  constructor
  · intro h p hp
    obtain ⟨n, hn, span, hspan, rfl | rfl⟩ := hp
    · exact (h n hn span hspan).1
    · exact (h n hn span hspan).2
  · intro h n hn span hspan
    exact ⟨h _ ⟨n, hn, span, hspan, Or.inl rfl⟩, h _ ⟨n, hn, span, hspan, Or.inr rfl⟩⟩

/-- A span that a tree is given takes no other span away. -/
theorem Value.Mentions.located {v : Value} {p : Position} (h : v.Mentions p) (span : Span) :
    (Outcome.located span v).Mentions p := by
  cases v with
  | node m =>
    simp only [Outcome.located]
    split
    · next hm =>
      obtain ⟨n, hn, s, hs, hp⟩ := h
      cases hn with
      | self => simp [hs] at hm
      | field hv hn => exact ⟨n, .field hv hn, s, hs, hp⟩
    · exact h
  | _ => exact h

theorem heritable_placed {S : Span → Prop} (hS : ∀ span, S span → P span.start ∧ P span.stop) :
    Heritable S (Node.Placed P) where
  blank := nofun
  insert hn _ := hn
  adopt {d n} hd hn := by
    intro span hspan
    simp only [Draft.adopt] at hspan
    split at hspan
    · rcases Option.or_eq_some_iff.1 hspan with h | ⟨-, h⟩
      · exact hd span h
      · exact hn span h
    · exact hd span hspan
  tag _ hspan := by
    intro s hs
    cases hs
    exact hS _ hspan

/-! ## Hand-written parts -/

/-- What an answer tells of positions. -/
def Answered {α : Type} (tells : α → Position → Prop) : Except ReadError α → Position → Prop
  | .ok a, p => tells a p
  | .error e, p => p = e.position

/-- The token that was found starts or stops here. -/
def ToldBy (found : Option Token) (p : Position) : Prop :=
  ∃ t, found = some t ∧ (p = t.span.start ∨ p = t.span.stop)

/-- What a segment that was run tells of positions: those of its tree, or where it failed, or where
it ended with an error. -/
def Handed : Except ParseError Outcome → Position → Prop
  | .ok o, p => (∃ v, o.data? = some v ∧ v.Mentions p) ∨ ∃ f, o.failure? = some f ∧ p = f.position
  | .error e, p => e.position? = some p

/-- All positions that the script gives are known, or it was told them in an answer. -/
def Script.Borrows : (Position → Prop) → Script → Prop
  | known, finish o =>
    (∀ v, o.data? = some v → ∀ p, v.Mentions p → known p) ∧
      ∀ f, o.failure? = some f → known f.position
  | known, abort e => ∀ p, e.position? = some p → known p
  | known, peek answer | known, next answer =>
    ∀ found, (answer found).Borrows fun p => known p ∨ Answered ToldBy found p
  | known, position answer => ∀ r, (answer r).Borrows fun p => known p ∨ Answered Eq r p
  | known, lastEnd answer => ∀ q, (answer q).Borrows fun p => known p ∨ q = p
  | known, offset answer | known, depth answer | known, limit answer =>
    ∀ n, (answer n).Borrows known
  | known, text answer => ∀ s, (answer s).Borrows known
  | known, save following | known, restore _ following => following.Borrows known
  | known, unmoved _ answer => ∀ b, (answer b).Borrows known
  | known, call _ answer => ∀ r, (answer r).Borrows fun p => known p ∨ Handed r p

/-- If the shape is a rule, then its conversion makes up no positions; if it is a script, then it
makes up none. -/
def Shape.Borrowing : Shape → Prop
  | .inline rule => ∀ v p, (rule.convert v).Mentions p → v.Mentions p
  | .script request _ => request.Borrows fun _ => False
  | _ => True

namespace Survey

variable {lexer : Lexer} {text : String} {α : Type}

/-- A token that a look can show has known ends. -/
theorem placeOf_of_toldBy {s s' : Stream lexer} {found : Option Token} (hs : s.Reachable text)
    (hp : peek s = .ok found s') {p : Position} (h : ToldBy found p) : lexer.PlaceOf text p := by
  obtain ⟨t, rfl, hends⟩ := h
  have hspan := ((ofText lexer text).token hs hp).placeOf
  rcases hends with rfl | rfl
  · exact hspan.1
  · exact hspan.2

section

variable {I : Stream lexer → Prop} (hI : ∀ s, I s → s.Reachable text)
include hI

/-- The answer to a request that reads tokens tells of known positions. -/
theorem comesTo_answerOf {x : Pull lexer α} {tells : α → Position → Prop} (hkeeps : PullKeeps I x)
    (hok : ∀ s a s', s.Reachable text → x s = .ok a s' → ∀ p, tells a p → lexer.PlaceOf text p)
    (herror : ∀ s e s', x s = .error e s' → ∃ t, peek s = .error e t) {s : Stream lexer}
    (hs : I s) :
    (ofText lexer text).ComesTo I (fun r => ∀ p, Answered tells r p → lexer.PlaceOf text p)
      (answerOf x s) := by
  have hkept := (hkeeps s hs).1
  unfold answerOf
  cases hx : x s with
  | ok a s' =>
    rw [hx] at hkept
    exact ⟨hkept, hok s a s' (hI s hs) hx⟩
  | error e s' =>
    rw [hx] at hkept
    refine ⟨hkept, ?_⟩
    intro p hp
    obtain ⟨t, ht⟩ := herror s e s' hx
    obtain rfl : p = e.position := hp
    exact (ofText lexer text).unreadable (hI s hs) ht

omit hI in
/-- So does the answer to the run of a segment. -/
theorem comesTo_outcomeOf {x : Parse lexer Outcome} {s : Stream lexer}
    (h : (ofText lexer text).ComesTo I
      ((ofText lexer text).Fits (Value.All (Node.Placed (lexer.PlaceOf text)))) (x s)) :
    (ofText lexer text).ComesTo I (fun r => ∀ p, Handed r p → lexer.PlaceOf text p)
      (outcomeOf x s) := by
  unfold outcomeOf
  cases hx : x s with
  | ok o s' =>
    rw [hx] at h
    obtain ⟨hs', ho⟩ := h
    refine ⟨hs', fun p hp => ?_⟩
    rcases hp with ⟨v, hv, hp⟩ | ⟨f, hf, rfl⟩
    · exact Value.all_placed_iff.1 (ho.data v hv) p hp
    · exact ho.position f hf
  | error e s' =>
    rw [hx] at h
    cases e with
    | error e => exact ⟨h.1, fun p hp => (h.2 e rfl).position p hp⟩
    | endless => exact h

variable [Closed I]

/-- A script that borrows its positions gives known ones, if those that it knows are, and if the
segments that it runs give such ones. -/
theorem comesTo_script {request : Script} {known : Position → Prop} (h : request.Borrows known)
    (hknown : ∀ p, known p → lexer.PlaceOf text p) {depthLimit : Nat}
    {runs : List (Parse lexer Outcome)}
    (hruns : ∀ x ∈ runs, (ofText lexer text).Yields (ofText lexer text).states x
      ((ofText lexer text).Fits (Value.All (Node.Placed (lexer.PlaceOf text)))))
    {saved : List Checkpoint}
    (hsaved : ∀ c ∈ saved, ∃ t : Stream lexer, I t ∧ t.checkpoint = c) {s : Stream lexer}
    (hs : I s) :
    (ofText lexer text).ComesTo I
      ((ofText lexer text).Fits (Value.All (Node.Placed (lexer.PlaceOf text))))
      (request.run depthLimit runs saved s) := by
  -- What a request was answered is known from then on.
  have hlearn {known learnt : Position → Prop} (hknown : ∀ p, known p → lexer.PlaceOf text p)
      (hlearnt : ∀ p, learnt p → lexer.PlaceOf text p) :
      ∀ p, known p ∨ learnt p → lexer.PlaceOf text p := by
    intro p hp
    rcases hp with hp | hp
    · exact hknown p hp
    · exact hlearnt p hp
  induction request generalizing known saved s with
  | finish o =>
    refine ⟨hs, ?_, fun f hf => hknown _ (h.2 f hf)⟩
    intro v hv
    exact Value.all_placed_iff.2 fun p hp => hknown p (h.1 v hv p hp)
  | abort e =>
    refine ⟨hs, fun pe hpe => ?_⟩
    cases hpe
    exact ⟨fun p hp => hknown p (h p hp), fun _ _ => trivial⟩
  | peek answer ih =>
    have hpeek := comesTo_answerOf hI pullKeeps_peek
      (fun s found s' hs hp p htold => placeOf_of_toldBy hs hp htold) (fun s e s' he => ⟨s', he⟩) hs
    refine hpeek.bind fun found s' hfound hs' => ?_
    exact ih found (h found) (hlearn hknown hfound) hsaved hs'
  | next answer ih =>
    have hnext := comesTo_answerOf hI pullKeeps_next
      (fun s found s' hs hn p htold => by
        obtain ⟨s₁, hp⟩ := peek_of_next_ok hn
        exact placeOf_of_toldBy hs hp htold)
      (fun s e s' he => ⟨s', peek_of_next_error he⟩) hs
    refine hnext.bind fun found s' hfound hs' => ?_
    exact ih found (h found) (hlearn hknown hfound) hsaved hs'
  | position answer ih =>
    have hposition := comesTo_answerOf hI pullKeeps_position
      (fun s p s' hs hp q (hq : p = q) => hq ▸ ((ofText lexer text).position hs hp).1)
      (fun s e s' he => ⟨s', peek_of_position_error he⟩) hs
    refine hposition.bind fun r s' hr hs' => ?_
    exact ih r (h r) (hlearn hknown hr) hsaved hs'
  | lastEnd answer ih =>
    have hend : lexer.PlaceOf text s.lastEnd := .stop (hI s hs).stopOf
    exact ih s.lastEnd (h _) (hlearn hknown fun p hp => hp ▸ hend) hsaved hs
  | offset answer ih => exact ih s.offset (h _) hknown hsaved hs
  | depth answer ih => exact ih s.depth (h _) hknown hsaved hs
  | text answer ih => exact ih s.text (h _) hknown hsaved hs
  | unmoved slot answer ih => exact ih _ (h _) hknown hsaved hs
  | limit answer ih => exact ih depthLimit (h _) hknown hsaved hs
  | call part answer ih =>
    have hrun : (ofText lexer text).Yields (ofText lexer text).states
        (runs.getD part (pure .success)) _ := yields_getD hruns part
    refine (comesTo_outcomeOf (hrun I hI s hs)).bind fun r s' hr hs' => ?_
    exact ih r (h r) (hlearn hknown hr) hsaved hs'
  | save following ih =>
    refine ih h hknown ?_ hs
    intro c hc
    rcases List.mem_cons.1 hc with rfl | hc
    · exact ⟨s, hs, rfl⟩
    · exact hsaved c hc
  | restore slot following ih =>
    simp only [Script.run]
    cases hslot : saved[slot]? with
    | some c =>
      obtain ⟨t, ht, rfl⟩ := hsaved c (List.mem_of_getElem? hslot)
      exact ih h hknown hsaved (Closed.back hs ht)
    | none => exact ih h hknown hsaved hs

end

theorem heritable_placeOf (lexer : Lexer) (text : String) :
    Heritable (lexer.SpanOf text) (Node.Placed (lexer.PlaceOf text)) :=
  heritable_placed fun _ h => h.placeOf

/-- What borrows its positions hands on those of the text. -/
theorem tame_of_borrowing {g : Grammar} {shape : Shape} (h : shape.Borrowing) :
    (ofText lexer text).Tame (Node.Placed (lexer.PlaceOf text)) g shape := by
  have hN := heritable_placeOf lexer text
  cases shape with
  | reference name => exact Or.inr trivial
  | inline rule =>
    intro v hv
    -- There is a span at the end of the text, which shows that the positions of `v` are known.
    have hspan : lexer.SpanOf text _ := .run (Or.inr rfl) (Or.inr rfl)
    refine hN.due (Value.all_placed_iff.2 fun p hp => ?_)
    exact Value.all_placed_iff.1 (hv _ hspan) p ((h v p hp).located _)
  | script request parts =>
    intro depthLimit runs hruns I _ hI s hs
    have hknown : ∀ p, False → lexer.PlaceOf text p := fun p => False.elim
    refine (comesTo_script hI h hknown hruns (by simp) hs).mono (fun _ => id) ?_
    intro o ho
    exact ho.mono fun v hv => hN.due hv
  | _ => trivial

end Survey

/-! ## Runs and parses -/

/-- Where no adjustment moves tokens, and hand-written parts make up no positions, every position
that comes from a stream over a text is true of the text: in the spans of the tree that a parse or a
run gives, at any depth, in the failure of a run, and in an error. -/
theorem positions_trueIn {lexer : Lexer} (hkeeps : lexer.KeepsSpans) {g : Grammar}
    (hg : g.Throughout Shape.Borrowing) {text : String} {s : Stream lexer}
    (hs : s.Reachable text) :
    (∀ root s',
      (∀ v, g.parse root s = .ok v s' → ∀ p, v.Mentions p → p.TrueIn text.toList) ∧
      ∀ e, g.parse root s = .error (.error e) s' →
        ∀ p, e.position? = some p → p.TrueIn text.toList) ∧
    ∀ segment : Segment, segment.Throughout Shape.Borrowing → ∀ s',
      (∀ o, segment.run g s = .ok o s' →
        (∀ v, o.data? = some v → ∀ p, v.Mentions p → p.TrueIn text.toList) ∧
        ∀ f, o.failure? = some f → f.position.TrueIn text.toList) ∧
      ∀ e, segment.run g s = .error (.error e) s' →
        ∀ p, e.position? = some p → p.TrueIn text.toList := by
  let G := Survey.ofText lexer text
  have htrue (p : Position) (hp : G.places p) : p.TrueIn text.toList :=
    Lexer.PlaceOf.trueIn hkeeps hp
  have hN := Survey.heritable_placeOf lexer text
  have htame {segment : Segment} (h : segment.Throughout Shape.Borrowing) :
      segment.Throughout (G.Tame (Node.Placed (lexer.PlaceOf text)) g) :=
    h.mono fun _ => Survey.tame_of_borrowing
  have hgrammar : g.Throughout (G.Tame (Node.Placed (lexer.PlaceOf text)) g) :=
    fun rule hr => htame (hg rule hr)
  refine ⟨fun root s' => ?_, fun segment hsegment s' => ?_⟩
  · have hparse := Survey.yields_parse hN hgrammar root (Or.inr trivial) G.states
      (fun _ h => h) s hs
    refine ⟨fun v h p hp => ?_, fun e h p hp => ?_⟩ <;> rw [h] at hparse
    · exact htrue p (Value.all_placed_iff.1 hparse.2 p hp)
    · exact htrue p ((hparse.2 e rfl).position p hp)
  · have hrun := Survey.yields_run hN hgrammar (htame hsegment) G.states (fun _ h => h) s hs
    refine ⟨fun o h => ⟨fun v hv p hp => ?_, fun f hf => ?_⟩, fun e h p hp => ?_⟩ <;>
      rw [h] at hrun
    · exact htrue p (Value.all_placed_iff.1 (hrun.2.data v hv) p hp)
    · exact htrue _ (hrun.2.position f hf)
    · exact htrue p ((hrun.2 e rfl).position p hp)

/-- Words, with line breaks between them that are passed over. -/
def wordsAndBreaks : Lexer where
  forms := [⟨"break", [.literals ["\n"]], []⟩, ⟨"word", [.literals ["a"]], []⟩]
  skipped := ["break"]

theorem borrowing_of_combined {shape : Shape} (h : shape.Combined) : shape.Borrowing := by
  cases shape with
  | inline rule =>
    have hrule : rule.convert = id := h
    intro v p hp
    rwa [hrule] at hp
  | script => exact h.elim
  | _ => trivial

/-- The tree of two words ends on the second line; if there is only one, then the other is missed
there. -/
theorem positions_trueIn_wordTwice :
    (∃ v s', wordTwice.parse "twice" (.ofString "a\na" : Stream wordsAndBreaks) = .ok v s' ∧
      v.Mentions ⟨3, 2, 2⟩ ∧ Position.TrueIn "a\na".toList ⟨3, 2, 2⟩) ∧
    ∃ o s' f, (Segment.reference "twice").run wordTwice
        (.ofString "a\n" : Stream wordsAndBreaks) = .ok o s' ∧ o.failure? = some f ∧
      f.position = ⟨2, 2, 1⟩ ∧ Position.TrueIn "a\n".toList ⟨2, 2, 1⟩ := by
  have hkeeps : wordsAndBreaks.KeepsSpans :=
    Lexer.keepsSpans_of_no_adjustments (by simp [wordsAndBreaks])
  have hg : wordTwice.Throughout Shape.Borrowing :=
    combined_wordTwice.mono fun _ => borrowing_of_combined
  constructor
  · have hended : endedIn (fun v _ => v.span? == some ⟨.start, ⟨3, 2, 2⟩⟩)
        (wordTwice.parse "twice" (.ofString "a\na" : Stream wordsAndBreaks)) = true := by
      decide +kernel
    obtain ⟨v, s', h, hspan⟩ := exists_of_endedIn hended
    obtain ⟨n, hn, hspan⟩ := Value.exists_inside_of_span? (eq_of_beq hspan)
    have hmentions : v.Mentions ⟨3, 2, 2⟩ := ⟨n, hn, _, hspan, Or.inr rfl⟩
    exact ⟨v, s', h, hmentions, ((positions_trueIn hkeeps hg .start).1 _ s').1 v h _ hmentions⟩
  · have hreference : (Segment.reference "twice").Throughout Shape.Borrowing :=
      Segment.throughout_of_parts_eq_nil rfl trivial
    have hended : endedIn (fun o _ => o.failure?.any fun f => f.position == ⟨2, 2, 1⟩)
        ((Segment.reference "twice").run wordTwice
          (.ofString "a\n" : Stream wordsAndBreaks)) = true := by
      decide +kernel
    obtain ⟨o, s', f, h, hf, hp⟩ := exists_failure_of_endedIn hended
    have hp : f.position = ⟨2, 2, 1⟩ := eq_of_beq hp
    have htrue := (((positions_trueIn hkeeps hg .start).2 _ hreference s').1 o h).2 f hf
    exact ⟨o, s', f, h, hf, hp, hp ▸ htrue⟩

end Descent
