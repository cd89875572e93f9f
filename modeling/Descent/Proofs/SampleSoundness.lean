import Descent.Proofs.SampleSyntax

/-!
# What the sample parser reads is derived

Rule by rule, with any error and any failure admitted: what a rule reads is derived from its
category, and its data is the tree. The rules refer to each other in circles, so this is shown for
all of them at once (`Given`), by induction on the levels that are left.

* `reads_list`, `reads_body`, `reads_parenthesized`, `gathers_assigned`: what several rules share.
* `given`: all rules.
* `reads_program`: a whole program.
-/
namespace Descent.Sample

open Descent.Stream

/-- Any error. -/
def Any (_ : Stop) : Prop := True

instance : Lenient Any := ⟨fun _ _ => trivial⟩

theorem lax_any : Lax Any := fun _ => trivial

/-- What the rule reads, with fewer than `n` levels left, is derived as `P` says. -/
def Gives (x : Tokenized) (n : Nat) (name : String)
    (P : List Lexeme → Value → List Lexeme → Prop) : Prop :=
  ∀ ts, ReadsRule x grammar Any n name ts
    (fun f rest => ∃ v, f = { data := some v } ∧ P ts v rest) True

variable {x : Tokenized} {n : Nat} {name : String} {e : Element} {ts : List Lexeme}
  {P P' : List Lexeme → Value → List Lexeme → Prop} {M : Finding → List Lexeme → Prop}

theorem Gives.mono (h : Gives x n name P) (hP : ∀ ts v rest, P ts v rest → P' ts v rest) :
    Gives x n name P' :=
  fun ts => (h ts).mono (fun _ _ ⟨v, hf, hv⟩ => ⟨v, hf, hP ts v _ hv⟩) id

theorem Gives.pred (h : Gives x (n + 1) name P) : Gives x n name P :=
  fun ts => (h ts).of_le (Nat.le_succ n)

theorem gives_of_gathers {rule : Rule} (hfind : grammar.find? name = some rule)
    (hn : rule.nesting = .inherit) (hc : rule.convert = id)
    (h : ∀ ts, Gathers x grammar Any n rule.kind {} rule.segments ts
      (fun f rest => ∃ v, f = { data := some v } ∧ P ts v rest) True) : Gives x (n + 1) name P :=
  fun ts => ⟨rule, hfind, readsWithin_inline rfl rfl hn hc (h ts)⟩

/-- A rule that passes a tree on gives the tree. -/
theorem IsTree.adds {v : Value} (h : IsTree v) :
    ∃ b', Adds {} { data := some v } b' ∧ b'.close none = some v := by
  obtain ⟨kind, fields, rfl, hsorted⟩ := h
  refine ⟨_, .node, ?_⟩
  have hfields := Fields.foldl_insert_of_sorted (show Fields.Sorted ([] ++ fields) from hsorted)
  simp only [Draft.adopt, hfields]
  rfl

/-! ## Shared parts -/

/-- Elements in parentheses. -/
theorem reads_list {s : Segment} (hs : s.shape = (listOf name).shape)
    (hn : s.options.nesting = .inherit) (h : Gives x n name (Derives (.one e)))
    (hM : ∀ vs rest, Derives (.list e) ts vs rest →
      M (({ data := some (.list vs) } : Finding).keyed s.options.key) rest) :
    ReadsWithin x grammar Any n s ts M True := by
  refine readsWithin_delimited (I := fun ts Q => ∀ vs rest,
    Derives (.separated e) ts vs (mark ")" :: rest) → Q vs rest) hs hn
    (readsWithin_exact rfl rfl ?_ fun _ => trivial) fun ts Q hI => ?_
  · rintro mid rfl
    refine readsWithin_exact rfl rfl ?_ fun _ => ⟨_, fun vs rest hvs => Derives.items hvs, hM⟩
    rintro rest rfl
    exact hM [] rest .noItems
  · refine readsWithin_reference rfl rfl ((h ts).mono (fun _ _ hv => hv) fun _ => lax_any) ?_
    rintro _ mid ⟨v, rfl, hv⟩
    refine readsWithin_exact rfl rfl ?_ fun _ => readsWithin_exact rfl rfl ?_ fun _ => trivial
    · rintro rest rfl
      exact ⟨Or.inl lax_any, fun vs last => Derives (.separated e) rest vs (mark ")" :: last),
        fun vs last hvs => hvs, fun vs last hvs => hI _ _ (.comma hv hvs)⟩
    · rintro rest rfl
      exact hI _ _ (.last hv)

/-- Elements up to a brace, behind the opening one. -/
theorem reads_body {s : Segment} (hs : s.shape = .untilMatch (punctuation "\x7d") (.reference name))
    (hn : s.options.nesting = .inherit) (h : Gives x n name (Derives (.one e)))
    (hM : ∀ vs rest, Derives (.body e) (mark "\x7b" :: ts) vs rest →
      M (({ data := some (.list vs) } : Finding).keyed s.options.key) rest) :
    ReadsWithin x grammar Any n s ts M True := by
  refine readsWithin_untilMatch (I := fun ts Q =>
      (∀ vs rest, Derives (.many e) ts vs (mark "\x7d" :: rest) → Q vs rest) ∧
      ∀ vs, Derives (.many e) ts vs [] → Q vs []) hs hn (fun ts Q ⟨hclosed, hunclosed⟩ => ?_)
    ⟨fun vs rest hvs => Derives.closed hvs, fun vs hvs => Derives.unclosed hvs⟩ hM
  refine readsWithin_exact rfl rfl ?_ fun _ => ⟨?_, fun _ => ?_⟩
  · rintro rest rfl
    exact hclosed _ _ .nothing
  · rintro rfl
    exact hunclosed _ .nothing
  · refine readsWithin_reference rfl rfl ((h ts).mono (fun _ _ hv => hv) fun _ => lax_any) ?_
    rintro _ mid ⟨v, rfl, hv⟩
    exact ⟨Or.inl lax_any, fun vs last => Q (v :: vs) last,
      ⟨fun vs rest hvs => hclosed _ _ (.more hv hvs), fun vs hvs => hunclosed _ (.more hv hvs)⟩,
      fun _ _ hQ => hQ⟩

/-- What the rules read that refer to each other in circles. -/
structure Given (x : Tokenized) (n : Nat) : Prop where
  statement : Gives x n "statement" (Derives (.one .statement))
  function : Gives x n "function" (Derives (.one .function))
  argument : Gives x n "argument" (Derives (.one .argument))
  block : Gives x n "block" fun ts v rest =>
    ∃ vs, v = .list vs ∧ Derives (.body .statement) ts vs rest
  conditional : Gives x n "if" (Derives .conditional)
  expression : Gives x n "expression" (Derives (.one .expression))

/-- An expression in parentheses. -/
theorem reads_parenthesized {s : Segment} (hs : s.shape = parenthesized.shape)
    (hn : s.options.nesting = .inherit) (h : Given x n)
    (hM : ∀ mid v rest, ts = mark "(" :: mid → Derives (.one .expression) mid v (mark ")" :: rest) →
      M (({ data := some v } : Finding).keyed s.options.key) rest) :
    ReadsWithin x grammar Any n s ts M True := by
  refine readsWithin_between hs hn (readsWithin_exact rfl rfl ?_ fun _ => trivial)
  rintro mid rfl
  refine readsWithin_reference rfl rfl (h.expression mid) ?_
  rintro _ more ⟨v, rfl, hv⟩
  refine readsWithin_exact rfl rfl ?_ fun _ => trivial
  rintro rest rfl
  exact hM mid v rest rfl hv

/-- The equals sign and an expression, or nothing. -/
theorem gathers_assigned {kind : Option String} {b : Draft} {segments : List Segment}
    {key : String} (hkey : isReserved key = false) (h : Given x n)
    (hnothing : Gathers x grammar Any n kind b segments ts M True)
    (hvalue : ∀ mid v rest, ts = equals :: mid → Derives (.one .expression) mid v rest →
      Gathers x grammar Any n kind (b.adopt { fields := [(key, v)] }) segments rest M True) :
    Gathers x grammar Any n kind b (.optional (Rule.toSegment
      { name := name, segments := [equalsSign, expression.keyed key] }) :: segments) ts M True := by
  refine gathers_optional rfl rfl (gathers_exact ?_ fun _ => trivial) fun _ => hnothing
  rintro mid rfl
  refine gathers_cons (readsWithin_reference rfl rfl (h.expression mid) ?_)
  rintro _ rest ⟨v, rfl, hv⟩
  exact ⟨_, .field hkey rfl, gathers_nil ⟨_, .node, hvalue mid v rest rfl hv⟩⟩

theorem chooses_of_gives {names : List String} (h : ∀ name ∈ names, Gives x n name P)
    (hM : ∀ v rest, P ts v rest → M { data := some v } rest) :
    Chooses x grammar Any n ts M True (names.map .reference) := by
  induction names with
  | nil => trivial
  | cons name names ih =>
    have ⟨hname, hnames⟩ := List.forall_mem_cons.1 h
    refine chooses_cons ((hname ts).mono ?_ id) fun _ => ih hnames
    rintro _ rest ⟨v, rfl, hv⟩
    exact hM v rest hv

/-- A rule of alternatives gives what all of them give. -/
theorem gives_choice (names : List String)
    (hfind : grammar.find? name = some { name, segments := [.choice (names.map .reference)] })
    (h : ∀ name ∈ names, Gives x n name P) (htree : ∀ ts v rest, P ts v rest → IsTree v) :
    Gives x (n + 1) name P := by
  refine gives_of_gathers hfind rfl rfl fun ts => gathers_cons (readsWithin_choice rfl rfl ?_)
  refine chooses_of_gives h fun v rest hv => ?_
  obtain ⟨b, hb, hclose⟩ := (htree ts v rest hv).adds
  exact ⟨b, hb, gathers_nil ⟨v, by rw [hclose], hv⟩⟩

/-! ## Statements -/

section

variable (h : Given x n)
include h

theorem gives_class : Gives x (n + 1) "class" (Derives (.one .statement)) := by
  refine gives_of_gathers rfl rfl rfl fun ts => gathers_exact ?_ fun _ => trivial
  rintro ts rfl
  refine gathers_ofKind rfl rfl ?_ fun _ => trivial
  rintro name ts rfl
  refine gathers_exact ?_ fun _ => trivial
  rintro ts rfl
  refine gathers_cons (reads_body rfl rfl h.function fun vs rest hvs => ?_)
  exact ⟨_, .field rfl rfl, gathers_nil ⟨_, rfl, .classOf hvs⟩⟩

theorem gives_return : Gives x (n + 1) "return" (Derives (.one .statement)) := by
  refine gives_of_gathers rfl rfl rfl fun ts => gathers_exact ?_ fun _ => trivial
  rintro ts rfl
  refine gathers_cons (readsWithin_optional rfl rfl
    (readsWithin_reference rfl rfl (h.expression ts) ?_)
    fun _ => ⟨_, .nothing, gathers_exact ?_ fun _ => trivial⟩)
  · rintro _ mid ⟨v, rfl, hv⟩
    refine ⟨_, .field rfl rfl, gathers_exact ?_ fun _ => trivial⟩
    rintro rest rfl
    exact gathers_nil ⟨_, rfl, .returnValue hv⟩
  · rintro rest rfl
    exact gathers_nil ⟨_, rfl, .returnNothing⟩

theorem gives_let : Gives x (n + 1) "let" (Derives (.one .statement)) := by
  refine gives_of_gathers rfl rfl rfl fun ts => gathers_exact ?_ fun _ => trivial
  rintro ts rfl
  refine gathers_ofKind rfl rfl ?_ fun _ => trivial
  rintro name ts rfl
  refine gathers_assigned rfl h (gathers_exact ?_ fun _ => trivial) ?_
  · rintro rest rfl
    exact gathers_nil ⟨_, rfl, .letName⟩
  · rintro mid v rest rfl hv
    refine gathers_exact ?_ fun _ => trivial
    rintro rest rfl
    exact gathers_nil ⟨_, rfl, .letValue hv⟩

theorem gives_evaluation :
    Gives x (n + 1) "expression_statement" (Derives (.one .statement)) := by
  refine gives_of_gathers rfl rfl rfl fun ts =>
    gathers_cons (readsWithin_reference rfl rfl (h.expression ts) ?_)
  rintro _ mid ⟨v, rfl, hv⟩
  refine ⟨_, .field rfl rfl, gathers_exact ?_ fun _ => trivial⟩
  rintro rest rfl
  exact gathers_nil ⟨_, rfl, .evaluation hv⟩

theorem gives_function : Gives x (n + 1) "function" (Derives (.one .function)) := by
  refine gives_of_gathers rfl rfl rfl fun ts => gathers_exact ?_ fun _ => trivial
  rintro ts rfl
  refine gathers_ofKind rfl rfl ?_ fun _ => trivial
  rintro name ts rfl
  refine gathers_cons (reads_list rfl rfl h.argument fun args mid hargs => ?_)
  refine ⟨_, .field rfl rfl, gathers_cons (readsWithin_reference rfl rfl (h.block mid) ?_)⟩
  rintro _ rest ⟨_, rfl, vs, rfl, hvs⟩
  exact ⟨_, .field rfl rfl, gathers_nil ⟨_, rfl, .function hargs hvs⟩⟩

theorem gives_argument : Gives x (n + 1) "argument" (Derives (.one .argument)) := by
  refine gives_of_gathers rfl rfl rfl fun ts => gathers_ofKind rfl rfl ?_ fun _ => trivial
  rintro name ts rfl
  refine gathers_assigned rfl h (gathers_nil ⟨_, rfl, .argument⟩) ?_
  rintro mid v rest rfl hv
  exact gathers_nil ⟨_, rfl, .argumentDefault hv⟩

theorem gives_block : Gives x (n + 1) "block" fun ts v rest =>
    ∃ vs, v = .list vs ∧ Derives (.body .statement) ts vs rest := by
  refine gives_of_gathers rfl rfl rfl fun ts => gathers_exact ?_ fun _ => trivial
  rintro ts rfl
  refine gathers_cons (reads_body rfl rfl h.statement fun vs rest hvs => ?_)
  exact ⟨_, .list, gathers_nil ⟨_, rfl, vs, rfl, hvs⟩⟩

theorem gives_conditional : Gives x (n + 1) "if" (Derives .conditional) := by
  refine gives_of_gathers rfl rfl rfl fun ts => gathers_exact ?_ fun _ => trivial
  rintro ts rfl
  refine gathers_cons (reads_parenthesized rfl rfl h ?_)
  rintro ts c mid rfl hc
  refine ⟨_, .field rfl rfl, gathers_cons (readsWithin_reference rfl rfl (h.block mid) ?_)⟩
  rintro _ more ⟨_, rfl, vs, rfl, hvs⟩
  refine ⟨_, .field rfl rfl, gathers_optional rfl rfl (gathers_exact ?_ fun _ => trivial)
    fun _ => gathers_nil ⟨_, rfl, .ifThen hc hvs⟩⟩
  rintro more rfl
  have hother : ∀ name ∈ ["if", "block"], Gives x n name fun ts v rest =>
      Derives .conditional ts v rest ∨
        ∃ vs, v = .list vs ∧ Derives (.body .statement) ts vs rest :=
    List.forall_mem_cons.2 ⟨h.conditional.mono fun _ _ _ => Or.inl,
      List.forall_mem_singleton.2 (h.block.mono fun _ _ _ => Or.inr)⟩
  refine gathers_cons (readsWithin_choice rfl rfl (chooses_of_gives hother ?_))
  rintro _ rest (hw | ⟨ws, rfl, hws⟩)
  · exact ⟨_, .field rfl rfl, gathers_nil ⟨_, .node, gathers_nil ⟨_, rfl, .elseIf hc hvs hw⟩⟩⟩
  · exact ⟨_, .field rfl rfl, gathers_nil ⟨_, .node, gathers_nil ⟨_, rfl, .ifElse hc hvs hws⟩⟩⟩

theorem gives_statement : Gives x (n + 1) "statement" (Derives (.one .statement)) := by
  refine gives_choice ["function", "class", "if", "return", "let",
    "expression_statement"] rfl ?_ fun _ _ _ hv => hv.isTree
  simp only [List.forall_mem_cons, List.not_mem_nil]
  exact ⟨h.function.mono fun _ _ _ => .declaration, (gives_class h).pred,
    h.conditional.mono fun _ _ _ => .branch, (gives_return h).pred, (gives_let h).pred,
    (gives_evaluation h).pred, nofun⟩

/-! ## Expressions -/

theorem gives_call : Gives x (n + 1) "call" (Derives .atom) := by
  refine gives_of_gathers rfl rfl rfl fun ts => gathers_ofKind rfl rfl ?_ fun _ => trivial
  rintro name ts rfl
  refine gathers_cons (reads_list rfl rfl h.expression fun vs rest hvs => ?_)
  exact ⟨_, .field rfl rfl, gathers_nil ⟨_, rfl, .call hvs⟩⟩

theorem gives_paren : Gives x (n + 1) "paren" (Derives .atom) := by
  refine gives_of_gathers rfl rfl rfl fun ts => gathers_cons (reads_parenthesized rfl rfl h ?_)
  rintro ts v rest rfl hv
  obtain ⟨b, hb, hclose⟩ := IsTree.adds hv.isTree
  exact ⟨b, hb, gathers_nil ⟨v, by rw [hclose], .paren hv⟩⟩

omit h in
theorem gives_leaf {kind key : String} {tag : String}
    (hfind : grammar.find? name = some { name, kind, segments := [(Segment.ofKind tag).keyed key] })
    (hkey : isReserved key = false)
    (hP : ∀ v rest, P ((tag, v) :: rest) (tree kind [(key, v.toValue)]) rest) :
    Gives x (n + 1) name P := by
  refine gives_of_gathers hfind rfl rfl fun ts => gathers_ofKind hkey rfl ?_ fun _ => trivial
  rintro v rest rfl
  exact gathers_nil ⟨_, rfl, hP v rest⟩

theorem gives_atom : Gives x (n + 1) "atom" (Derives .atom) := by
  refine gives_choice ["call", "paren", "number", "string", "name"] rfl ?_
    fun _ _ _ hv => hv.isTree
  simp only [List.forall_mem_cons, List.not_mem_nil]
  exact ⟨(gives_call h).pred, (gives_paren h).pred,
    (gives_leaf rfl rfl fun _ _ => .number).pred, (gives_leaf rfl rfl fun _ _ => .string).pred,
    (gives_leaf rfl rfl fun _ _ => .name).pred, nofun⟩

theorem gives_expression : Gives x (n + 1) "expression" (Derives (.one .expression)) := by
  refine gives_of_gathers rfl rfl rfl fun ts => gathers_cons (readsWithin_binary
    (I := fun ts Q => ∀ row rest, Derives .row ts row rest → Q row rest) rfl rfl
    (readsWithin_reference rfl rfl ((gives_atom h).pred ts) ?_)
    (fun ts Q hI _ => hI [] ts .done) fun op mid Q hI hop => ?_)
  · rintro _ mid ⟨v, rfl, hv⟩
    refine ⟨v, _, rfl, fun row rest hrow => hrow, fun row rest w hrow hw => ?_⟩
    have hexpression : Derives (.one .expression) ts w rest := .expression hv hrow hw
    obtain ⟨b, hb, hclose⟩ := IsTree.adds hexpression.isTree
    exact ⟨b, hb, gathers_nil ⟨w, by rw [hclose], hexpression⟩⟩
  · refine readsWithin_reference rfl rfl ((gives_atom h).pred mid) ?_
    rintro _ rest ⟨v, rfl, hv⟩
    exact ⟨Or.inl lax_any, v, fun row last => Q ((op, v) :: row) last, rfl,
      fun row last hrow => hI _ _ (.operand (isOperator_iff.2 hop) hv hrow), fun _ _ hQ => hQ⟩

end

/-! ## Programs -/

/-- What all rules read is derived, however many levels are left. -/
theorem given (x : Tokenized) (n : Nat) : Given x n := by
  induction n with
  | zero => exact ⟨fun ts => ⟨_, rfl, nofun⟩, fun ts => ⟨_, rfl, nofun⟩, fun ts => ⟨_, rfl, nofun⟩,
      fun ts => ⟨_, rfl, nofun⟩, fun ts => ⟨_, rfl, nofun⟩, fun ts => ⟨_, rfl, nofun⟩⟩
  | succ n ih => exact ⟨gives_statement ih, gives_function ih, gives_argument ih, gives_block ih,
      gives_conditional ih, gives_expression ih⟩

/-- What the root reads is a program. -/
theorem gives_program (x : Tokenized) (n : Nat) : Gives x (n + 1) root (Derives .program) := by
  refine gives_of_gathers rfl rfl rfl fun ts => gathers_cons (readsWithin_untilEnd
    (I := fun ts Q => ∀ vs, Derives (.many .statement) ts vs [] → Q vs []) rfl rfl
    (fun Q hI => hI [] .nothing) (fun ts Q _ hI => ?_)
    (Q := fun vs rest => rest = [] ∧ Derives (.many .statement) ts vs [])
    (fun vs hvs => ⟨rfl, hvs⟩) ?_)
  · refine readsWithin_reference rfl rfl
      (((given x n).statement ts).mono (fun _ _ hv => hv) fun _ => lax_any) ?_
    rintro _ mid ⟨v, rfl, hv⟩
    exact ⟨Or.inl lax_any, fun vs last => Q (v :: vs) last,
      fun vs hvs => hI _ (.more hv hvs), fun _ _ hQ => hQ⟩
  · rintro vs rest ⟨rfl, hvs⟩
    exact ⟨_, .field rfl rfl, gathers_nil ⟨_, rfl, .program hvs⟩⟩

end Descent.Sample
