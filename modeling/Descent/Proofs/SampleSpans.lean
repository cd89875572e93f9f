import Descent.Proofs.Climbing
import Descent.Proofs.Orderly
import Descent.Proofs.SampleSoundness
import Descent.Proofs.SampleTrees

/-!
# The spans of sample trees

The grammar of the sample language is orderly, so that its trees lie in the order of their tokens.
With what is known of the trees themselves this says how the spans of their nodes lie to each other:
inside of the spans around them, one behind the other in lists, and to the left and to the right of
an operator.

* `orderly_grammar`: all rules but the root are orderly.
* `walks_statements`, `walks_program`: what the root gives.
* `spans_nested`: the spans of all nodes of a program.
-/
namespace Descent

open Descent.Stream

/-- The node has a kind and a span. All nodes inside have spans inside, the items of its lists come
one behind the other, and if it is that of an operator, then its left operand ends before the right
one begins. -/
structure Node.Nested (n : Node) : Prop where
  tagged : n.kind.isSome = true
  inside : ∃ span, n.span = some span ∧
    ∀ p ∈ n.fields, ∀ m : Node, m.Inside p.2 → ∃ s, m.span = some s ∧ s.Within span
  lists : ∀ p ∈ n.fields, ∀ items, p.2 = .list items →
    items.Pairwise fun v w => ∃ s t, v.span? = some s ∧ w.span? = some t ∧ s.Precedes t
  operands : n.kind = some binaryKind → ∃ left right s t,
    n.get? leftName = some left ∧ n.get? rightName = some right ∧
      left.span? = some s ∧ right.span? = some t ∧ s.stop.offset < t.start.offset

variable {lexer : Lexer} {text : String} {i j : Nat}

/-- Regular nodes that lie in the order of their tokens are nested. -/
theorem nested_of_laid (hkeeps : lexer.KeepsSpans) {n : Node}
    (hlaid : (Value.node n).Laid (lexer.Covers text) i j)
    (hall : (Value.node n).All Node.Regular) : n.Nested := by
  have htagged {p : String × Value} (hp : p ∈ n.fields) {m : Node} (hm : m.Inside p.2) :
      m.kind.isSome = true := (hall m (.field hp hm)).tagged
  have hregular := hall n .self
  cases hlaid with
  | untagged hkind =>
    have hsome := hregular.tagged
    rw [hkind] at hsome
    cases hsome
  | @tagged _ _ a b m _ kind span _ _ hkind hspan hcovers hfields hleft hright =>
    refine ⟨hregular.tagged, ⟨span, hspan, fun p hp w hw => ?_⟩, fun p hp items hitems => ?_,
      fun hbinary => ?_⟩
    · have hlaid := (hfields p hp).inside hw
      obtain ⟨c, d, s, hac, hdb, hs, hinner⟩ := hlaid.exists_span (htagged hp hw)
      exact ⟨s, hs, hcovers.within hkeeps hinner hac hdb⟩
    · have hlist := hfields p hp
      rw [hitems] at hlist
      refine hlist.pairwise.imp_of_mem fun {v w} hv hw ⟨k, hbefore, hbehind⟩ => ?_
      obtain ⟨x, rfl⟩ := hregular.items p hp items hitems v hv
      obtain ⟨y, rfl⟩ := hregular.items p hp items hitems w hw
      have hx := htagged hp (show x.Inside p.2 from hitems ▸ .item hv .self)
      have hy := htagged hp (show y.Inside p.2 from hitems ▸ .item hw .self)
      obtain ⟨_, d, s, -, hdk, hs, hfirst⟩ := hbefore.exists_span hx
      obtain ⟨c, _, t, hkc, -, ht, hsecond⟩ := hbehind.exists_span hy
      exact ⟨s, t, hs, ht, hfirst.precedes hkeeps hsecond (Nat.le_trans hdk hkc)⟩
    · obtain ⟨left, right, hl, hr⟩ := hregular.operands hbinary
      have hlmem := Fields.mem_of_lookup hl
      have hrmem := Fields.mem_of_lookup hr
      obtain rfl : kind = binaryKind := Option.some.inj (hkind.symm.trans hbinary)
      obtain ⟨_, d, s, -, hdm, hs, hfirst⟩ :=
        (hleft rfl _ hlmem).exists_span (htagged hlmem .self)
      obtain ⟨c, _, t, hmc, -, ht, hsecond⟩ :=
        (hright rfl _ hrmem).exists_span (htagged hrmem .self)
      exact ⟨_, _, s, t, hl, hr, hs, ht, hfirst.before hkeeps hsecond (by omega)⟩

namespace Sample

open Segment

theorem orderly_grammar : grammar.Orderly root := by
  unfold Grammar.Orderly grammar rules
  dsimp only [keyword, punctuation, equalsSign, named, expression, listOf, parenthesized, keyed,
    exact, ofKind, Segment.optional, choice, delimited, between, untilMatch, binary,
    Rule.toSegment, List.map_cons, List.map_nil, reference, labelled]
  simp [root, reference, labelled, Shape.Orderly, Shape.parts, Rule.Orderly, givers,
    Shape.isSilent, Shape.takesToken, binaryKind]

/-- The node of a program whose statements are these. -/
def programNode (span : Span) (items : List Value) : Node :=
  ⟨some "program", some span, [("body", .list items)]⟩

/-- The segment of the root. -/
def statements : Segment := (untilEnd (reference "statement")).keyed "body"

/-- These lie in a list in the order of their tokens, up to the end of the text. -/
def Listed (lexer : Lexer) (text : String) (i j : Nat) (items : List Value) : Prop :=
  (Value.list items).Laid (lexer.Covers text) i j ∧ lexer.found (lexer.place text j) = .ok none

/-- The statements of a program are read up to the end of the text. -/
theorem walks_statements (hkeeps : lexer.KeepsSpans) (levels : Nat) :
    Walks text i (statements.runWithin grammar levels : Parse lexer Outcome) fun j o =>
      o.isMatch = true → ∃ items, Listed lexer text i j items ∧
        o.data? = some (.list items) ∧ o.key = some "body" := by
  have hstatement (m : Nat) : Lays text
      ((reference "statement").runWithin grammar m : Parse lexer Outcome) := fun k =>
    (walks_runWithin hkeeps orderly_grammar
      (throughout_reference.2 ⟨nofun, show "statement" ≠ root by decide⟩) rfl m).mono
        fun _ _ _ h hm => (h hm).laid
  refine (walks_levels hkeeps fun m _ => walks_untilEndBody (hstatement m)).mono
    fun j o _ h hm => ?_
  obtain ⟨inside, span, ⟨items, rfl, hitems⟩, -, -, hdata, hkey, -⟩ := h hm
  exact ⟨items, hitems, hdata, hkey⟩

/-- The draft of a program that began at `i`, before it has its statements and with them. -/
inductive Collecting (lexer : Lexer) (text : String) (i : Nat) :
    Nat → Draft → List Segment → Prop
  | blank : Collecting lexer text i i {} [statements]
  | full {j : Nat} {items : List Value} (h : Listed lexer text i j items) :
    Collecting lexer text i j { node := { fields := [("body", .list items)] } } []

theorem Collecting.add {d d' : Draft} {s : Segment} {segments : List Segment} {o : Outcome}
    {items : List Value} {policy : Nesting} {position : Position} {k : Nat}
    (hd : Collecting lexer text i k d (s :: segments)) (hitems : Listed lexer text k j items)
    (hdata : o.data? = some (.list items)) (hkey : o.key = some "body")
    (hadd : d.add o policy position = .ok d') : Collecting lexer text i j d' segments := by
  cases hd
  rw [Draft.add, hdata, hkey] at hadd
  cases hadd
  exact .full hitems

/-- The root gives the node of statements that lie in the order of their tokens, up to the end of
the text. -/
theorem walks_program (hkeeps : lexer.KeepsSpans) {rule : Rule}
    (hfind : grammar.find? root = some rule) (levels : Nat) :
    Walks text i (rule.toSegment.runWithin grammar levels : Parse lexer Outcome) fun j o =>
      o.isMatch = true → ∃ span items, o.data? = some (.node (programNode span items)) ∧
        (i < j → lexer.Covers text i j span) ∧ Listed lexer text i j items := by
  cases hfind
  have hrule (m : Nat) : Walks text i (ruleBody (Segment.runWithin grammar m)
      { name := root, kind := some "program", segments := [statements] } : Parse lexer Outcome)
      fun j o => o.isMatch = true → o.nesting = .inherit ∧
        ∃ d, Collecting lexer text i j d [] ∧ o.data? = d.close (some "program") := by
    refine walks_ruleBody rfl (walks_gather (P := fun _ k j o => ∃ items,
      Listed lexer text k j items ∧ o.data? = some (.list items) ∧ o.key = some "body")
      (fun s hs k => ?_) ?_ .blank)
    · rw [List.mem_singleton.1 hs]
      exact walks_statements hkeeps m
    · intro k j d s rest o position d' hd _ ⟨items, hitems, hdata, hkey⟩ hadd
      exact hd.add hitems hdata hkey hadd
  refine (walks_levels hkeeps fun m _ => hrule m).mono fun j o _ h hm => ?_
  obtain ⟨inside, span, hinside, hmi, hcovers, hdata, -⟩ := h hm
  obtain ⟨-, d, hd, hclose⟩ := hinside hmi
  cases hd with
  | full hitems =>
    refine ⟨span, _, ?_, hcovers, hitems⟩
    rw [hdata, hclose]
    rfl

theorem keepsSpans_lexer : Sample.lexer.KeepsSpans := by
  unfold Lexer.KeepsSpans Sample.lexer
  simp [Adjustment.KeepsSpan]

/-- A text that is parsed and passed up to its end has a regular tree. -/
theorem regular_of_parse {s s' : Stream lexer} {v : Value}
    (h : grammar.parseText lexer root text = .ok v s') {k : Nat} (hs : s.At text k)
    (hend : lexer.found (lexer.place text k) = .ok none) : v.All Node.Regular := by
  obtain ⟨tokens, hfound⟩ := hs.exists_tokens hend
  let x : Tokenized := ⟨lexer, text, tokens, hfound⟩
  rcases parse_of_readsRule (gives_program x grammar.maxDepth _) (Nat.lt_succ_self _) with
    ⟨e, t, hp, -⟩ | ⟨w, t, f, rest, hp, ⟨u, rfl, hu⟩, hw⟩
  · cases h.symm.trans hp
  · cases h.symm.trans hp
    obtain rfl : v.bare = u := hw
    exact regular_of_bare hu.regular.2

/-- A program without a token is empty; any other lies in the order of its tokens with all that is
in it. -/
theorem nested_program {span : Span} {items : List Value}
    (hcovers : 0 < j → Sample.lexer.Covers text 0 j span)
    (hlaid : (Value.list items).Laid (Sample.lexer.Covers text) 0 j)
    (hall : (Value.node (programNode span items)).All Node.Regular) :
    (programNode span items).Nested := by
  have hregular := hall _ .self
  have hbody : ("body", Value.list items) ∈ (programNode span items).fields := List.mem_cons_self
  rcases Nat.eq_zero_or_pos j with rfl | hpos
  · have hnil : items = [] := by
      refine List.eq_nil_iff_forall_not_mem.2 fun v hv => ?_
      obtain ⟨n, rfl⟩ := hregular.items _ hbody items rfl v hv
      have htagged := (hall n (.field hbody (.item hv .self))).tagged
      obtain ⟨a, b, s, -, hb, -, c, t, u, hc, -⟩ := (hlaid.item hv).exists_span htagged
      omega
    subst hnil
    refine ⟨rfl, ⟨span, rfl, fun p hp m hm => ?_⟩, fun p hp items hitems => ?_, fun hbinary =>
      absurd (Option.some.inj hbinary) (show "program" ≠ binaryKind by decide)⟩
    · rw [List.mem_singleton.1 hp] at hm
      cases hm with
      | item hv => cases hv
    · rw [List.mem_singleton.1 hp] at hitems
      cases hitems
      exact .nil
  · have hfields : ∀ p ∈ (programNode span items).fields,
        p.2.Laid (Sample.lexer.Covers text) 0 j := fun p hp => by
      rw [List.mem_singleton.1 hp]
      exact hlaid
    have hprogram : (Value.node (programNode span items)).Laid (Sample.lexer.Covers text) 0 j :=
      .tagged (m := 0) (Nat.le_refl 0) (Nat.le_refl j) rfl rfl (hcovers hpos) hfields nofun nofun
    exact nested_of_laid keepsSpans_lexer hprogram hall

/-- Whatever the sample parser accepts: it gives a program, in which each node has a kind and a
span, no node reaches out of the nodes around it, the items of each list come one behind the other,
and the operands of each operator to its left and to its right. Each node but the program itself
covers a token. -/
theorem spans_nested {text : String} {s' : Stream Sample.lexer} {v : Value}
    (h : grammar.parseText Sample.lexer root text = .ok v s') :
    ∃ program : Node, v = .node program ∧ program.kind = some "program" ∧
      (∀ n : Node, n.Inside v → n.Nested) ∧
      ∀ p ∈ program.fields, ∀ n : Node, n.Inside p.2 →
        ∃ t span, Sample.lexer.TokenOf text t ∧ n.span = some span ∧ t.span.Within span := by
  have hwalk : Walks text 0 (grammar.parse root : Parse Sample.lexer Value) _ :=
    walks_parse rfl (walks_program keepsSpans_lexer rfl)
  obtain ⟨j, -, hs', o, ⟨span, items, hdata, hcovers, hlaid, hend⟩, rfl⟩ :=
    hwalk _ v s' (at_ofString text) h
  rw [hdata, Option.getD_some] at h ⊢
  have hall := regular_of_parse h hs' hend
  have hinside {p : String × Value} (hp : p ∈ (programNode span items).fields) {n : Node}
      (hn : n.Inside p.2) : (Value.node n).Laid (Sample.lexer.Covers text) 0 j := by
    rw [List.mem_singleton.1 hp] at hn
    exact hlaid.inside hn
  refine ⟨programNode span items, rfl, rfl, fun n hn => ?_, fun p hp n hn => ?_⟩
  · cases hn with
    | self => exact nested_program hcovers hlaid hall
    | field hp hn =>
      refine nested_of_laid keepsSpans_lexer (hinside hp hn) fun m hm => ?_
      exact hall m (.field hp (hn.trans hm))
  · have htagged := (hall n (.field hp hn)).tagged
    obtain ⟨a, b, s, -, -, hs, hinner⟩ := (hinside hp hn).exists_span htagged
    obtain ⟨t, ht, hwithin⟩ := hinner.token keepsSpans_lexer
    exact ⟨t, s, ht, hs, hwithin⟩

/-- The spans of a call: those of its arguments, of the sum among them and of all around them. -/
theorem spans_nested_call :
    ∃ (s' : Stream Sample.lexer) (v : Value),
      grammar.parseText Sample.lexer root "f(a, b + c);" = .ok v s' ∧
      v.span? = some ⟨.start, ⟨12, 1, 13⟩⟩ ∧
      ∃ program : Node, v = .node program ∧ program.kind = some "program" ∧
        (∀ n : Node, n.Inside v → n.Nested) ∧
        ∀ p ∈ program.fields, ∀ n : Node, n.Inside p.2 → ∃ t span,
          Sample.lexer.TokenOf "f(a, b + c);" t ∧ n.span = some span ∧ t.span.Within span := by
  have hended : endedIn (fun v _ => v.span? == some ⟨.start, ⟨12, 1, 13⟩⟩)
      (grammar.parseText Sample.lexer root "f(a, b + c);") = true := by
    unfold Sample.lexer
    rw [ofLiterals_operators]
    decide +kernel
  obtain ⟨v, s', h, hspan⟩ := exists_of_endedIn hended
  exact ⟨s', v, h, by simpa using hspan, spans_nested h⟩

end Sample

end Descent
