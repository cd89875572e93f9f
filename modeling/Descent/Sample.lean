import Descent.Grammar.Basic
import Descent.Lexing.Lexer

/-!
# A sample language

A small language of functions, classes, variables, conditions and expressions, as a lexer and a
grammar. Its root is the rule `program`.

* `defineAll_rules`: the rules make up a grammar.
* `validate_grammar`: every reference in it names a rule.
-/
namespace Descent.Sample

open Segment

/-! ## Tokens -/

def keywords : List String := ["function", "class", "let", "if", "else", "return"]

def operators : List String :=
  ["==", "!=", "<=", ">=", "&&", "||", "+=", "-=", "*=", "/=", "=", "+", "-", "*", "/", "%", "<",
    ">", "!"]

section Patterns

open Pattern

def char (c : Char) : Pattern := .literal c []

/-- One or more characters of a set. -/
def many (set : CharSet) : Pattern := .repeated .atLeastOne true (.one set)

def anyNumberOf (set : CharSet) : Pattern := .repeated .anyNumber true (.one set)

def digits : Pattern := many (.range '0' '9')

/-- Digits, perhaps with a point and more digits. -/
def number : Pattern := .seq digits (.repeated .atMostOne true (.seq (char '.') digits))

/-- Two slashes and the rest of the line. -/
def lineComment : Pattern :=
  .seq (.literal '/' ['/']) (anyNumberOf (CharSet.single '\n').complement)

def letters : List CharSet := [.range 'A' 'Z', .range 'a' 'z', .single '_', .single '$']

def identifier : Pattern :=
  .seq (.one (.ofList letters)) (anyNumberOf (.ofList (.range '0' '9' :: letters)))

end Patterns

def lexer : Lexer where
  forms := [
    { kind := "whitespace", recognizers := [.pattern (many .blank)] },
    { kind := "comment", recognizers := [.pattern lineComment, .quoted "/*" "*/" none] },
    { kind := "number", recognizers := [.pattern number], adjustments := [.number] },
    { kind := "string"
      recognizers := [.quoted "\"" "\"" (some '\\'), .quoted "'" "'" (some '\\')] },
    { kind := "identifier", recognizers := [.pattern identifier]
      adjustments := [.keywords "keyword" keywords] },
    { kind := "operator", recognizers := [.ofLiterals operators] },
    { kind := "punctuation", recognizers := [.oneOf "()\x7b\x7d[];,.:"] }]
  skipped := ["whitespace", "comment"]

/-! ## Grammar -/

def root : String := "program"

/-- The operators in tiers, the loosest first. Assignments group to the right. -/
def tiers : List Tier := [
  .ofTexts .right "operator" ["=", "+=", "-=", "*=", "/="],
  .ofTexts .left "operator" ["||"],
  .ofTexts .left "operator" ["&&"],
  .ofTexts .left "operator" ["==", "!="],
  .ofTexts .left "operator" ["<", "<=", ">", ">="],
  .ofTexts .left "operator" ["+", "-"],
  .ofTexts .left "operator" ["*", "/", "%"]]

def keyword (text : String) : Segment := exact "keyword" text

def punctuation (text : String) : Segment := exact "punctuation" text

def equalsSign : Segment := exact "operator" "="

/-- An identifier under a key. -/
def named (key : String) : Segment := (ofKind "identifier").keyed key

def expression : Segment := reference "expression"

/-- Elements with commas between them, in parentheses. -/
def listOf (element : String) : Segment :=
  delimited (punctuation "(") (punctuation ")") (punctuation ",") (reference element)

/-- An expression in parentheses. -/
def parenthesized : Segment := between (punctuation "(") expression (punctuation ")")

def rules : List Rule := [
  { name := root, kind := some "program"
    segments := [(untilEnd (reference "statement")).keyed "body"] },
  { name := "statement"
    segments := [choice (["function", "class", "if", "return", "let",
      "expression_statement"].map reference)] },
  { name := "function", kind := some "function"
    segments := [keyword "function", named "name", (listOf "argument").keyed "args",
      (reference "block").keyed "body"] },
  { name := "argument", kind := some "argument"
    segments := [named "name", optional (Rule.toSegment
      { name := "default", segments := [equalsSign, expression.keyed "default"] })] },
  { name := "block"
    segments := [punctuation "\x7b", untilMatch (punctuation "\x7d") (reference "statement")] },
  { name := "class", kind := some "class"
    segments := [keyword "class", named "name", punctuation "\x7b",
      (untilMatch (punctuation "\x7d") (reference "function")).keyed "members"] },
  { name := "if", kind := some "if"
    segments := [keyword "if", parenthesized.keyed "condition", (reference "block").keyed "then",
      optional (Rule.toSegment
        { name := "else"
          segments := [keyword "else", (choice (["if", "block"].map reference)).keyed "else"] })] },
  { name := "return", kind := some "return"
    segments := [keyword "return", optional (expression.keyed "value"), punctuation ";"] },
  { name := "let", kind := some "let"
    segments := [keyword "let", named "name", optional (Rule.toSegment
      { name := "initializer", segments := [equalsSign, expression.keyed "value"] }),
      punctuation ";"] },
  { name := "expression_statement", kind := some "expression"
    segments := [expression.keyed "expression", punctuation ";"] },
  { name := "expression", segments := [binary (reference "atom") tiers] },
  { name := "atom"
    segments := [choice (["call", "paren", "number", "string", "name"].map reference)] },
  { name := "call", kind := some "call"
    segments := [named "callee", (listOf "expression").keyed "args"] },
  { name := "paren", segments := [parenthesized] },
  { name := "number", kind := some "number", segments := [(ofKind "number").keyed "value"] },
  { name := "string", kind := some "string", segments := [(ofKind "string").keyed "value"] },
  { name := "name", kind := some "identifier", segments := [named "name"] }]

def grammar : Grammar := { rules := rules }

theorem defineAll_rules : Grammar.defineAll {} rules = .ok grammar := by rfl

theorem validate_grammar : grammar.validate = .ok () := by rfl

end Descent.Sample
