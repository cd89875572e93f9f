import Descent.Proofs.Layout
import Descent.Proofs.SampleCompleteness

/-!
# The sample parser

What the sample parser reads is derived, and what is derived it reads: it accepts the programs of
its grammar and gives their trees. This holds under any lexer, since the grammar asks for no more
than what the tokens say, and up to the depth limit.

* `parsed_eq_ok_iff_derives`: the parse of a text that is tokenized gives a value iff its tokens are
  a program with this tree.
-/
namespace Descent.Sample

/-- A text that is tokenized, and whose parse does not go too deep, is parsed to a value iff its
tokens are derived as a program, and the value without spans is the tree of the derivation. -/
theorem parsed_eq_ok_iff_derives {lexer : Lexer} {text : String} {tokens : List Token}
    (h : lexer.tokenize text = .ok tokens)
    (hdeep : ¬ EndsTooDeep (grammar.parseText lexer root text)) (v : Value) :
    parsed (grammar.parseText lexer root text) = .ok v ↔
      Derives .program (tokens.map Token.content) v [] := by
  let x : Tokenized := .ofTokenize h
  constructor
  · intro hv
    rcases parse_of_readsRule (gives_program x grammar.maxDepth _) (Nat.lt_succ_self _) with
      ⟨e, s, hp, -⟩ | ⟨w, s, f, rest, hp, ⟨u, rfl, hu⟩, hw⟩
    · rw [show grammar.parseText lexer root text = _ from hp] at hv
      cases hv
    · rw [show grammar.parseText lexer root text = _ from hp] at hv
      obtain rfl : w.bare = v := by injection hv
      obtain rfl : w.bare = u := hw
      obtain rfl : rest = [] := hu.rest_program
      exact hu
  · intro hv
    rcases parse_of_readsRule (takes_program x grammar.maxDepth hv) (Nat.lt_succ_self _) with
      ⟨e, s, hp, he | hF⟩ | ⟨w, s, f, rest, hp, ⟨rfl, -⟩, hw⟩
    · exact absurd ⟨e, s, hp, he⟩ hdeep
    · exact hF.elim
    · rw [show grammar.parseText lexer root text = _ from hp]
      exact congrArg Except.ok hw

/-- The node of a name. -/
def nameTree (name : String) : Value := tree "identifier" [("name", .text name)]

/-- The node of an operator and its operands. -/
def binaryTree (operator : String) (left right : Value) : Value :=
  tree "binary" [("operator", .text operator), ("left", left), ("right", right)]

/-- The product is the tighter one. -/
theorem groups_sum_product : Groups tiers (nameTree "b")
    [(("operator", .text "+"), nameTree "a"), (("operator", .text "*"), nameTree "b")]
    (binaryTree "+" (nameTree "b") (binaryTree "*" (nameTree "a") (nameTree "b"))) := by
  let operator (text : String) (tier : Nat) : Operator :=
    ⟨⟨"operator", .text text, .nowhere⟩, tier⟩
  let leaf (name : String) : OpTree := .leaf ⟨.start, nameTree name, .start⟩
  refine ⟨.node (operator "+" 5) (leaf "b") (.node (operator "*" 6) (leaf "a") (leaf "b")),
    ⟨nofun, ?_, trivial, nofun, nofun, trivial, trivial⟩, rfl, rfl, ?_, rfl⟩
  · rintro _ (_ | ⟨_, ⟨⟩⟩)
    exact Or.inl (by decide)
  · rintro _ (_ | ⟨_, _ | ⟨_, ⟨⟩⟩⟩) <;> rfl

def definition : String := "let a = b + a * b;"

theorem content_tokenize_definition :
    (lexer.tokenize definition).map (·.map Token.content) = .ok
      [word "let", ident (.text "a"), equals, ident (.text "b"), ("operator", .text "+"),
        ident (.text "a"), ("operator", .text "*"), ident (.text "b"), mark ";"] := by
  unfold lexer
  rw [ofLiterals_operators]
  -- Sets of characters are joined by a recursion on both, which has to be opened.
  with_unfolding_all rfl

/-- A definition is derived, so it is parsed, to the tree of its derivation. -/
theorem parsed_eq_ok_iff_derives_definition :
    ∃ tokens, lexer.tokenize definition = .ok tokens ∧
      ¬ EndsTooDeep (grammar.parseText lexer root definition) ∧
      parsed (grammar.parseText lexer root definition) = .ok (tree "program" [("body", .list
        [tree "let" [("name", .text "a"), ("value",
          binaryTree "+" (nameTree "b") (binaryTree "*" (nameTree "a") (nameTree "b")))]])]) := by
  have hdeep : ¬ EndsTooDeep (grammar.parseText lexer root definition) := by
    unfold lexer
    rw [ofLiterals_operators]
    decide +kernel
  have hsaid := content_tokenize_definition
  cases h : lexer.tokenize definition with
  | error e => rw [h] at hsaid; cases hsaid
  | ok tokens =>
    rw [h] at hsaid
    refine ⟨tokens, rfl, hdeep, (parsed_eq_ok_iff_derives h hdeep _).2 ?_⟩
    rw [show tokens.map Token.content = _ from Except.ok.inj hsaid]
    have hplus : IsOperator tiers ("operator", .text "+") := isOperator_iff.2 (by decide)
    have htimes : IsOperator tiers ("operator", .text "*") := isOperator_iff.2 (by decide)
    exact .program (.more (.letValue (.expression .name
      (.operand hplus .name (.operand htimes .name .done)) groups_sum_product)) .nothing)

end Descent.Sample
