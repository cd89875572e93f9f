import Descent.Proofs.Operands
import Descent.Sample

/-!
# The sample language

The language as its productions, over what tokens say. `Derives c ts v rest` derives the beginning
of `ts`, up to `rest`, from the category `c`, with the tree `v`:

    program     = statement*
    statement   = function | class | if | return | let | expression ';'
    function    = 'function' name '(' [argument {',' argument}] ')' block
    argument    = name ['=' expression]
    block       = '{' statement* '}'
    class       = 'class' name '{' function* '}'
    if          = 'if' '(' expression ')' block ['else' (if | block)]
    return      = 'return' [expression] ';'
    let         = 'let' name ['=' expression] ';'
    expression  = atom {operator atom}
    atom        = name '(' [expression {',' expression}] ')' | '(' expression ')'
                | number | string | name

At the end of the text the brace that closes a block or a class may be missing.

* `ofLiterals_operators`: in which order the lexer tries the operators.
* `Derives.length_le`: what is derived is not empty, but for repetitions.
* `Derives.isTree`: its tree is a node with a kind, and with its fields in order.
* `Derives.head_atom`, `Derives.head`: what it begins with.
-/
namespace Descent.Sample

open Segment

/-! ## Trees -/

/-- The node of this kind with these fields. -/
def tree (kind : String) (fields : List (String × Value)) : Value :=
  .node ⟨some kind, none, fields.foldl (fun fs (name, v) => Fields.insert name v fs) []⟩

/-! ## What tokens say -/

/-- The operators are in the order in which they are tried. -/
theorem ofLiterals_operators : Recognizer.ofLiterals operators = .literals operators := by
  have hlonger : operators.Pairwise fun s t => decide (t.length ≤ s.length) = true := by decide
  have hall : (operators.filter fun t => !t.isEmpty) = operators := by decide
  unfold Recognizer.ofLiterals
  rw [hall, List.mergeSort_of_pairwise hlonger]

def word (text : String) : Lexeme := ("keyword", .text text)

def mark (text : String) : Lexeme := ("punctuation", .text text)

def equals : Lexeme := ("operator", .text "=")

def ident (name : TokenValue) : Lexeme := ("identifier", name)

/-! ## Derivations -/

/-- What can be repeated. -/
inductive Element where
  | statement
  | function
  | argument
  | expression

/-- What a stretch of tokens can be. -/
inductive Category where
  | program
  | one (e : Element)
  /-- Any number of them. -/
  | many (e : Element)
  /-- One or more with commas between them. -/
  | separated (e : Element)
  /-- None or more with commas between them, in parentheses. -/
  | list (e : Element)
  /-- Any number of them in braces. -/
  | body (e : Element)
  | conditional
  | atom
  /-- Operators with atoms behind them. -/
  | row

/-- What is derived from a category: a tree, a list of trees, or the operators and operands of an
expression behind its first operand. -/
def Category.Result : Category → Type
  | .program | .one _ | .conditional | .atom => Value
  | .many _ | .separated _ | .list _ | .body _ => List Value
  | .row => List (Lexeme × Value)

/-- The beginning of the tokens, up to the rest of them, is derived from a category. -/
inductive Derives : (c : Category) → List Lexeme → c.Result → List Lexeme → Prop
  | program {ts vs} (body : Derives (.many .statement) ts vs []) :
    Derives .program ts (tree "program" [("body", .list vs)]) []
  -- Repetitions
  | nothing {e ts} : Derives (.many e) ts [] ts
  | more {e ts v mid vs rest} (first : Derives (.one e) ts v mid)
    (others : Derives (.many e) mid vs rest) : Derives (.many e) ts (v :: vs) rest
  | last {e ts v rest} (only : Derives (.one e) ts v rest) : Derives (.separated e) ts [v] rest
  | comma {e ts v mid vs rest} (first : Derives (.one e) ts v (mark "," :: mid))
    (others : Derives (.separated e) mid vs rest) : Derives (.separated e) ts (v :: vs) rest
  | noItems {e rest} : Derives (.list e) (mark "(" :: mark ")" :: rest) [] rest
  | items {e ts vs rest} (items : Derives (.separated e) ts vs (mark ")" :: rest)) :
    Derives (.list e) (mark "(" :: ts) vs rest
  | closed {e ts vs rest} (items : Derives (.many e) ts vs (mark "\x7d" :: rest)) :
    Derives (.body e) (mark "\x7b" :: ts) vs rest
  | unclosed {e ts vs} (items : Derives (.many e) ts vs []) :
    Derives (.body e) (mark "\x7b" :: ts) vs []
  -- Statements
  | declaration {ts v rest} (declared : Derives (.one .function) ts v rest) :
    Derives (.one .statement) ts v rest
  | classOf {name ts vs rest} (members : Derives (.body .function) ts vs rest) :
    Derives (.one .statement) (word "class" :: ident name :: ts)
      (tree "class" [("name", name.toValue), ("members", .list vs)]) rest
  | branch {ts v rest} (choice : Derives .conditional ts v rest) :
    Derives (.one .statement) ts v rest
  | returnNothing {rest} :
    Derives (.one .statement) (word "return" :: mark ";" :: rest) (tree "return" []) rest
  | returnValue {ts v rest} (value : Derives (.one .expression) ts v (mark ";" :: rest)) :
    Derives (.one .statement) (word "return" :: ts) (tree "return" [("value", v)]) rest
  | letName {name rest} :
    Derives (.one .statement) (word "let" :: ident name :: mark ";" :: rest)
      (tree "let" [("name", name.toValue)]) rest
  | letValue {name ts v rest} (value : Derives (.one .expression) ts v (mark ";" :: rest)) :
    Derives (.one .statement) (word "let" :: ident name :: equals :: ts)
      (tree "let" [("name", name.toValue), ("value", v)]) rest
  | evaluation {ts v rest} (value : Derives (.one .expression) ts v (mark ";" :: rest)) :
    Derives (.one .statement) ts (tree "expression" [("expression", v)]) rest
  | function {name ts args mid body rest} (arguments : Derives (.list .argument) ts args mid)
    (block : Derives (.body .statement) mid body rest) :
    Derives (.one .function) (word "function" :: ident name :: ts)
      (tree "function" [("name", name.toValue), ("args", .list args), ("body", .list body)]) rest
  | argument {name rest} :
    Derives (.one .argument) (ident name :: rest)
      (tree "argument" [("name", name.toValue)]) rest
  | argumentDefault {name ts v rest} (default : Derives (.one .expression) ts v rest) :
    Derives (.one .argument) (ident name :: equals :: ts)
      (tree "argument" [("name", name.toValue), ("default", v)]) rest
  | ifThen {ts c mid vs rest} (condition : Derives (.one .expression) ts c (mark ")" :: mid))
    (block : Derives (.body .statement) mid vs rest) :
    Derives .conditional (word "if" :: mark "(" :: ts)
      (tree "if" [("condition", c), ("then", .list vs)]) rest
  | ifElse {ts c mid vs more ws rest}
    (condition : Derives (.one .expression) ts c (mark ")" :: mid))
    (block : Derives (.body .statement) mid vs (word "else" :: more))
    (other : Derives (.body .statement) more ws rest) :
    Derives .conditional (word "if" :: mark "(" :: ts)
      (tree "if" [("condition", c), ("then", .list vs), ("else", .list ws)]) rest
  | elseIf {ts c mid vs more w rest}
    (condition : Derives (.one .expression) ts c (mark ")" :: mid))
    (block : Derives (.body .statement) mid vs (word "else" :: more))
    (other : Derives .conditional more w rest) :
    Derives .conditional (word "if" :: mark "(" :: ts)
      (tree "if" [("condition", c), ("then", .list vs), ("else", w)]) rest
  -- Expressions
  | expression {ts v mid row rest w} (first : Derives .atom ts v mid)
    (others : Derives .row mid row rest) (value : Groups tiers v row w) :
    Derives (.one .expression) ts w rest
  | done {ts} : Derives .row ts [] ts
  | operand {op ts v mid row rest} (operator : IsOperator tiers op) (atom : Derives .atom ts v mid)
    (others : Derives .row mid row rest) : Derives .row (op :: ts) ((op, v) :: row) rest
  | call {name ts vs rest} (arguments : Derives (.list .expression) ts vs rest) :
    Derives .atom (ident name :: ts)
      (tree "call" [("callee", name.toValue), ("args", .list vs)]) rest
  | paren {ts v rest} (inner : Derives (.one .expression) ts v (mark ")" :: rest)) :
    Derives .atom (mark "(" :: ts) v rest
  | number {x rest} :
    Derives .atom (("number", x) :: rest) (tree "number" [("value", x.toValue)]) rest
  | string {s rest} :
    Derives .atom (("string", s) :: rest) (tree "string" [("value", s.toValue)]) rest
  | name {name rest} :
    Derives .atom (ident name :: rest) (tree "identifier" [("name", name.toValue)]) rest

variable {c : Category} {e : Element} {ts rest : List Lexeme} {v : Value}

/-! ## Lengths -/

/-- How many tokens are derived at least. -/
def Category.shortest : Category → Nat
  | .program | .many _ | .row => 0
  | _ => 1

theorem Derives.length_le {v : c.Result} (h : Derives c ts v rest) :
    rest.length + c.shortest ≤ ts.length := by
  induction h <;> simp only [Category.shortest, List.length_cons, List.length_nil] at * <;> omega

/-- Nothing follows a program. -/
theorem Derives.rest_program (h : Derives .program ts v rest) : rest = [] := by
  cases h
  rfl

/-! ## Beginnings -/

/-- Can an atom begin with this? -/
def StartsAtom (l : Lexeme) : Prop :=
  l.1 = "identifier" ∨ l.1 = "number" ∨ l.1 = "string" ∨ l = mark "("

theorem Derives.head_atom (h : Derives .atom ts v rest) :
    ∃ l mid, ts = l :: mid ∧ StartsAtom l := by
  cases h with
  | call => exact ⟨_, _, rfl, Or.inl rfl⟩
  | paren => exact ⟨_, _, rfl, Or.inr (Or.inr (Or.inr rfl))⟩
  | number => exact ⟨_, _, rfl, Or.inr (Or.inl rfl)⟩
  | string => exact ⟨_, _, rfl, Or.inr (Or.inr (Or.inl rfl))⟩
  | name => exact ⟨_, _, rfl, Or.inl rfl⟩

theorem Derives.head_expression (h : Derives (.one .expression) ts v rest) :
    ∃ l mid, ts = l :: mid ∧ StartsAtom l := by
  cases h with
  | expression first => exact first.head_atom

theorem StartsAtom.ne_word {l : Lexeme} (h : StartsAtom l) (text : String) : l ≠ word text := by
  rintro rfl
  simp [StartsAtom, word, mark] at h

theorem StartsAtom.ne_mark {l : Lexeme} (h : StartsAtom l) {text : String} (htext : text ≠ "(") :
    l ≠ mark text := by
  rintro rfl
  simp [StartsAtom, mark, htext] at h

/-- Can something that is repeated begin with this? -/
def Starts (l : Lexeme) : Prop := (∃ text, text ≠ "else" ∧ l = word text) ∨ StartsAtom l

theorem Derives.head_conditional (h : Derives .conditional ts v rest) :
    ∃ mid, ts = word "if" :: mid := by
  cases h <;> exact ⟨_, rfl⟩

theorem Derives.head_function (h : Derives (.one .function) ts v rest) :
    ∃ mid, ts = word "function" :: mid := by
  cases h
  exact ⟨_, rfl⟩

theorem Derives.head_body {vs : List Value} (h : Derives (.body e) ts vs rest) :
    ∃ mid, ts = mark "\x7b" :: mid := by
  cases h <;> exact ⟨_, rfl⟩

theorem Derives.head (h : Derives (.one e) ts v rest) : ∃ l mid, ts = l :: mid ∧ Starts l := by
  cases h with
  | declaration h =>
    obtain ⟨mid, rfl⟩ := h.head_function
    exact ⟨_, mid, rfl, Or.inl ⟨_, by decide, rfl⟩⟩
  | branch h =>
    obtain ⟨mid, rfl⟩ := h.head_conditional
    exact ⟨_, mid, rfl, Or.inl ⟨_, by decide, rfl⟩⟩
  | evaluation h =>
    obtain ⟨l, mid, rfl, hl⟩ := h.head_expression
    exact ⟨l, mid, rfl, Or.inr hl⟩
  | expression h =>
    obtain ⟨l, mid, rfl, hl⟩ := h.head_atom
    exact ⟨l, mid, rfl, Or.inr hl⟩
  | argument => exact ⟨_, _, rfl, Or.inr (Or.inl rfl)⟩
  | argumentDefault => exact ⟨_, _, rfl, Or.inr (Or.inl rfl)⟩
  | _ => exact ⟨_, _, rfl, Or.inl ⟨_, by decide, rfl⟩⟩

theorem Starts.ne_mark {l : Lexeme} (h : Starts l) {text : String} (htext : text ≠ "(") :
    l ≠ mark text := by
  rcases h with ⟨text', -, rfl⟩ | h
  · simp [word, mark]
  · exact h.ne_mark htext

theorem Starts.ne_else {l : Lexeme} (h : Starts l) : l ≠ word "else" := by
  rcases h with ⟨text, htext, rfl⟩ | h
  · simpa [word] using htext
  · exact h.ne_word "else"

theorem Derives.ne_mark (h : Derives (.one e) ts v rest) {text : String} (htext : text ≠ "(")
    (more : List Lexeme) : ts ≠ mark text :: more := by
  obtain ⟨l, mid, rfl, hl⟩ := h.head
  exact fun hts => hl.ne_mark htext (List.cons.inj hts).1

/-- A body ends at a brace, or at the end of the text, or goes on with another element. -/
theorem Derives.body_cases {vs : List Value} (h : Derives (.body e) (mark "\x7b" :: ts) vs rest) :
    (ts = mark "\x7d" :: rest ∧ vs = []) ∨ (ts = [] ∧ vs = [] ∧ rest = []) ∨
      ∃ v mid ws, vs = v :: ws ∧ Derives (.one e) ts v mid ∧
        Derives (.body e) (mark "\x7b" :: mid) ws rest := by
  cases h with
  | closed h =>
    cases h with
    | nothing => exact Or.inl ⟨rfl, rfl⟩
    | more hv hvs => exact Or.inr (Or.inr ⟨_, _, _, rfl, hv, .closed hvs⟩)
  | unclosed h =>
    cases h with
    | nothing => exact Or.inr (Or.inl ⟨rfl, rfl, rfl⟩)
    | more hv hvs => exact Or.inr (Or.inr ⟨_, _, _, rfl, hv, .unclosed hvs⟩)

/-! ## Trees -/

/-- A node with a kind and without a span, and with its fields in order. -/
def IsTree (v : Value) : Prop :=
  ∃ kind fields, v = .node ⟨some kind, none, fields⟩ ∧ Fields.Sorted fields

theorem isTree_tree (kind : String) (fields : List (String × Value)) : IsTree (tree kind fields) :=
  ⟨kind, _, rfl, Fields.foldl_insert_sorted List.Pairwise.nil⟩

/-- What is one tree is a tree. -/
def Category.Trees : (c : Category) → c.Result → Prop
  | .program, v | .one _, v | .conditional, v | .atom, v => IsTree v
  | .many _, _ | .separated _, _ | .list _, _ | .body _, _ | .row, _ => True

theorem isTree_of_groups {first : Value} {row : List (Lexeme × Value)} (hfirst : IsTree first)
    (h : Groups tiers first row v) : IsTree v := by
  obtain ⟨t, -, rfl, -, -, rfl⟩ := h
  cases t with
  | leaf operand => exact hfirst
  | node operator left right =>
    rw [OpTree.value, OpTree.bare_operation]
    exact ⟨_, _, rfl, Fields.insert_sorted (Fields.insert_sorted (Fields.insert_sorted
      List.Pairwise.nil))⟩

theorem Derives.isTree {v : c.Result} (h : Derives c ts v rest) : c.Trees v := by
  induction h with
  | declaration _ ih => exact ih
  | branch _ ih => exact ih
  | expression _ _ value ih _ => exact isTree_of_groups ih value
  | paren _ ih => exact ih
  | _ => first | trivial | exact isTree_tree _ _

end Descent.Sample
