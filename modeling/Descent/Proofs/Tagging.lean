import Descent.Proofs.Documents
import Descent.Proofs.Positions

/-!
# Tagged nodes and their spans

A node has a span if and only if it has a kind. The span is that of a token, that of an operator
with its operands, or that of the run which gave the node. It starts where a token starts, or at the
end of the text; where no adjustment moves tokens, it stops behind its start where a token stops, or
at its start.

* `heritable_located`: rules keep nodes of this kind.
* `Lexer.SpanOf.order`, `Lexer.SpanOf.stop`: the ends of a span.
* `parse_spans`: all nodes of a tree.
* `span_without_token`: what an adjustment that turns spans round, or a checkpoint of another text,
  does to a node.
-/
namespace Descent

open Descent.Stream

/-! ## The order of positions -/

namespace Position

theorem order_of_offset_lt {p q : Position} (h : p.offset < q.offset) : p.order q = .lt := by
  rw [order, Nat.compare_eq_lt.2 h]
  rfl

theorem order_self (p : Position) : p.order p = .eq := by
  simp [order]

theorem isLE_order_latest (p q : Position) : (p.order (p.latest q)).isLE = true := by
  unfold latest
  split
  · next h =>
    rw [Ordering.isLT_iff_eq_lt.1 h]
    rfl
  · rw [order_self]
    rfl

/-- A true position does not come before the start of the text. -/
theorem TrueIn.isLT_order_start {text : List Char} {p : Position} (h : p.TrueIn text) :
    (p.order start).isLT = false := by
  rcases Nat.eq_zero_or_pos p.offset with hzero | hpos
  · have hline := h.line_eq
    have hcolumn := h.column_eq
    rw [hzero] at hline hcolumn
    have hstart : p = start := by
      cases p
      simp_all [start]
    rw [hstart, order_self]
    rfl
  · have hgt : compare p.offset start.offset = .gt := Nat.compare_eq_gt.2 hpos
    rw [order, hgt]
    rfl

end Position

/-! ## The ends of spans -/

namespace Lexer

variable {lexer : Lexer} {text : String} {span : Span}

theorem SpanOf.startOf (h : lexer.SpanOf text span) : lexer.StartOf text span.start := by
  cases h with
  | @tokens j _ t _ _ ht _ => exact Or.inl ⟨t, ⟨j, ht⟩, rfl⟩
  | run hp _ => exact hp

/-- A span does not stop before it starts. -/
theorem SpanOf.order (hkeeps : lexer.KeepsSpans) (h : lexer.SpanOf text span) :
    (span.start.order span.stop).isLE = true := by
  cases h with
  | @tokens j k t u hjk ht hu =>
    have hlt := ht.start_lt_stop hkeeps hu hjk
    simp only [Position.order_of_offset_lt hlt]
    rfl
  | run => exact Position.isLE_order_latest _ _

theorem SpanOf.stop (hkeeps : lexer.KeepsSpans) (h : lexer.SpanOf text span) :
    (∃ t, lexer.TokenOf text t ∧ span.stop = t.span.stop) ∨ span.stop = span.start := by
  cases h with
  | @tokens _ k _ u _ _ hu => exact Or.inl ⟨u, ⟨k, hu⟩, rfl⟩
  | @run p q hp hq =>
    unfold Position.latest
    split
    · next hlt =>
      rcases hq with hq | rfl
      · exact Or.inl hq
      · have htrue : p.TrueIn text.toList := PlaceOf.trueIn hkeeps (.start hp)
        rw [htrue.isLT_order_start] at hlt
        cases hlt
    · exact Or.inr rfl

end Lexer

/-! ## Nodes -/

/-- The node has a span, one of `S`, if and only if it has a kind. -/
structure Node.Located (S : Span → Prop) (n : Node) : Prop where
  isSome_eq : n.kind.isSome = n.span.isSome
  span : ∀ span, n.span = some span → S span

theorem heritable_located (S : Span → Prop) : Heritable S (Node.Located S) where
  blank := ⟨rfl, nofun⟩
  insert hn _ := ⟨hn.isSome_eq, hn.span⟩
  adopt {d n} hd hn := by
    have heq := hd.isSome_eq
    cases hkind : d.node.kind with
    | none =>
      -- A draft without a kind has no span yet, and takes over both.
      rw [hkind] at heq
      have hspan : d.node.span = none := by simpa using heq.symm
      refine ⟨?_, ?_⟩ <;> simp only [Draft.adopt, hkind, hspan]
      · exact hn.isSome_eq
      · exact hn.span
    | some kind =>
      rw [hkind] at heq
      refine ⟨?_, ?_⟩ <;> simp only [Draft.adopt, hkind]
      · exact heq
      · exact hd.span
  tag _ hspan := by
    refine ⟨rfl, ?_⟩
    intro s hs
    cases hs
    exact hspan

/-- In the tree of a grammar without hand-written parts, every node at any depth has a span if and
only if it has a kind. The span starts where a token of the text starts, or at the end of the text.
If no adjustment moves tokens, then it does not stop before it starts, and it stops where a token
stops, or where it starts. -/
theorem parse_spans {lexer : Lexer} {g : Grammar} (hg : g.Throughout Shape.Combined) {text : String}
    {s s' : Stream lexer} (hs : s.Reachable text) {root : String} {v : Value}
    (h : g.parse root s = .ok v s') {n : Node} (hn : n.Inside v) :
    (n.kind.isSome ↔ n.span.isSome) ∧
    ∀ span, n.span = some span →
      ((∃ t, lexer.TokenOf text t ∧ span.start = t.start) ∨
        span.start = Position.start.after text.toList) ∧
      (lexer.KeepsSpans → (span.start.order span.stop).isLE ∧
        ((∃ t, lexer.TokenOf text t ∧ span.stop = t.span.stop) ∨ span.stop = span.start)) := by
  have hall : v.All (Node.Located (lexer.SpanOf text)) := by
    let G := Survey.ofText lexer text
    have htame : g.Throughout (G.Tame (Node.Located (lexer.SpanOf text)) g) :=
      hg.mono fun _ h => Survey.tame_of_combined (fun _ => trivial) h
    exact Survey.all_of_parse (heritable_located _) htame (Or.inr trivial) hs h
  refine ⟨by rw [(hall n hn).isSome_eq], ?_⟩
  intro span hspan
  have hof := (hall n hn).span span hspan
  exact ⟨hof.startOf, fun hkeeps => ⟨hof.order hkeeps, hof.stop hkeeps⟩⟩

/-- The spans of two words and of the node around them start at tokens and end behind them. -/
theorem parse_spans_wordTwice :
    ∃ v s' tokens, wordTwice.parse "twice" (.ofString "a a" : Stream wordsAndBlanks) = .ok v s' ∧
      wordsAndBlanks.tokenize "a a" = .ok tokens ∧ v.span? = some ⟨.start, ⟨3, 1, 4⟩⟩ ∧
      ∀ n : Node, n.Inside v → (n.kind.isSome ↔ n.span.isSome) ∧ ∀ span, n.span = some span →
        ((∃ t ∈ tokens, span.start = t.start) ∨ span.start = ⟨3, 1, 4⟩) ∧
        (span.start.order span.stop).isLE ∧
        ((∃ t ∈ tokens, span.stop = t.span.stop) ∨ span.stop = span.start) := by
  have hended : endedIn (fun v _ => v.span? == some ⟨.start, ⟨3, 1, 4⟩⟩)
      (wordTwice.parse "twice" (.ofString "a a" : Stream wordsAndBlanks)) = true := by
    decide +kernel
  obtain ⟨v, s', h, hspan⟩ := exists_of_endedIn hended
  obtain ⟨tokens, htokens⟩ : ∃ tokens, wordsAndBlanks.tokenize "a a" = .ok tokens := ⟨_, rfl⟩
  have hkeeps : wordsAndBlanks.KeepsSpans :=
    Lexer.keepsSpans_of_no_adjustments (by simp [wordsAndBlanks])
  refine ⟨v, s', tokens, h, htokens, by simpa using hspan, ?_⟩
  intro n hn
  obtain ⟨hkind, hspans⟩ := parse_spans combined_wordTwice .start h hn
  refine ⟨hkind, ?_⟩
  intro span hspan
  obtain ⟨hstart, hrest⟩ := hspans span hspan
  simp only [Lexer.tokenOf_iff_mem htokens] at hstart hrest
  exact ⟨hstart, hrest hkeeps⟩

/-- Words of one letter, the spans of which are turned round. -/
def wordsTurned : Lexer where
  forms := [⟨"word", [.literals ["a"]], [.turned]⟩]

def oneWord : Grammar where
  rules := [{ name := "one", segments := [.leaf "word"] }]

theorem combined_oneWord : oneWord.Throughout Shape.Combined := by
  have hword : (Segment.leaf "word").Throughout Shape.Combined :=
    Segment.throughout_of_parts_eq_nil rfl trivial
  exact List.forall_mem_singleton.2 (Rule.combined_toSegment rfl (by simpa using hword))

/-- A span can stop before it starts, where an adjustment turns it round. And on a stream that was
returned to a checkpoint over another text, a span need not start where a token of the text does. -/
theorem span_without_token :
    (¬ ∀ (lexer : Lexer) (g : Grammar) (text root : String) (s s' : Stream lexer) v (n : Node) span,
        g.Throughout Shape.Combined → s.Reachable text → g.parse root s = .ok v s' → n.Inside v →
        n.span = some span → (span.start.order span.stop).isLE = true) ∧
    ¬ ∀ (lexer : Lexer) (g : Grammar) (text root : String) (s s' : Stream lexer) v (n : Node) span,
        lexer.KeepsSpans → g.Throughout Shape.Combined → s.text = text →
        g.parse root s = .ok v s' → n.Inside v → n.span = some span →
        (∃ t, lexer.TokenOf text t ∧ span.start = t.start) ∨
          span.start = Position.start.after text.toList := by
  constructor <;> intro hall
  · have hended : endedIn (fun v _ => v.span? == some ⟨⟨1, 1, 2⟩, .start⟩)
        (oneWord.parse "one" (.ofString "a" : Stream wordsTurned)) = true := by decide +kernel
    obtain ⟨v, s', h, hspan⟩ := exists_of_endedIn hended
    obtain ⟨n, hn, hspan⟩ := Value.exists_inside_of_span? (eq_of_beq hspan)
    have hle := hall _ oneWord "a" "one" _ s' v n _ combined_oneWord .start h hn hspan
    exact absurd hle (by decide)
  · have hended : endedIn (fun v _ => v.span? == some ⟨⟨1, 1, 2⟩, ⟨2, 1, 3⟩⟩)
        (oneWord.parse "one" (.strayed mixedWords "é" "aab")) = true := by decide +kernel
    obtain ⟨v, s', h, hspan⟩ := exists_of_endedIn hended
    obtain ⟨n, hn, hspan⟩ := Value.exists_inside_of_span? (eq_of_beq hspan)
    have htokens : mixedWords.tokenize "aab" = .ok [⟨"word", .text "aa", ⟨.start, ⟨2, 1, 3⟩⟩⟩,
        ⟨"word", .text "b", ⟨⟨2, 1, 3⟩, ⟨3, 1, 4⟩⟩⟩] := rfl
    have hstart := hall _ oneWord "aab" "one" _ s' v n _ keepsSpans_mixedWords combined_oneWord rfl
      h hn hspan
    simp only [Lexer.tokenOf_iff_mem htokens] at hstart
    exact absurd hstart (by decide)

end Descent
