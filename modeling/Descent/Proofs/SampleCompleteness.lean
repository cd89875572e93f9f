import Descent.Proofs.DepthLimit
import Descent.Proofs.SampleSoundness

/-!
# What is derived the sample parser reads

Rule by rule, with no error admitted but that the nesting goes too deep: what is derived from a
category is read by its rule, all of it and nothing behind it, if what follows can not be taken for
a part of it. What follows an expression is a mark other than an opening parenthesis; what follows a
condition is no `else`. An alternative that is not the right one fails at its first token, or the
call at its second, so that no choice is lost.

* `takes_list`, `takes_body`, `takes_parenthesized`: what several rules share.
* `taken`: all rules, by induction on the levels that are left.
* `takes_program`: a whole program.
-/
namespace Descent.Sample

open Descent.Stream

instance : Lenient Stop.TooDeep := ⟨fun p limit => ⟨p, limit, rfl⟩⟩

/-- With fewer than `n` levels left the rule reads all up to `rest`, and its data is `v`. -/
def Takes (x : Tokenized) (n : Nat) (name : String) (ts : List Lexeme) (v : Value)
    (rest : List Lexeme) : Prop :=
  ReadsRule x grammar Stop.TooDeep n name ts (fun f r => f = { data := some v } ∧ r = rest) False

/-- The rule fails where it stands. -/
def Misses (x : Tokenized) (n : Nat) (name : String) (ts : List Lexeme) : Prop :=
  ReadsRule x grammar Stop.TooDeep n name ts (fun _ _ => False) True

/-- What follows does not go on with a condition. -/
def NoElse (rest : List Lexeme) : Prop := ∀ more, rest ≠ word "else" :: more

/-- What follows is a mark, and does not open a list. -/
def Marked (rest : List Lexeme) : Prop := ∃ text more, rest = mark text :: more ∧ text ≠ "("

/-- What follows does not open a list. -/
def NoList (rest : List Lexeme) : Prop := ∀ more, rest ≠ mark "(" :: more

variable {x : Tokenized} {n : Nat} {name : String} {e : Element} {ts mid rest : List Lexeme}
  {l : Lexeme} {v : Value} {vs : List Value} {M : Finding → List Lexeme → Prop} {F : Prop}
  {kind key : Option String} {b b' : Draft} {s : Segment} {segments : List Segment}

theorem marked_mark {text : String} (h : text ≠ "(") : Marked (mark text :: rest) :=
  ⟨text, rest, rfl, h⟩

/-! ## Steps -/

theorem Takes.pred (h : Takes x (n + 1) name ts v rest) : Takes x n name ts v rest :=
  h.of_le (Nat.le_succ n)

theorem takes_of_gathers {rule : Rule} (hfind : grammar.find? name = some rule)
    (hn : rule.nesting = .inherit) (hc : rule.convert = id)
    (h : Gathers x grammar Stop.TooDeep n rule.kind {} rule.segments ts
      (fun f r => f = { data := some v } ∧ r = rest) False) : Takes x (n + 1) name ts v rest :=
  ⟨rule, hfind, readsWithin_inline rfl rfl hn hc h⟩

theorem misses_of_gathers {rule : Rule} (hfind : grammar.find? name = some rule)
    (hn : rule.nesting = .inherit) (hc : rule.convert = id)
    (h : Gathers x grammar Stop.TooDeep n rule.kind {} rule.segments ts (fun _ _ => False) True) :
    Misses x n name ts :=
  ⟨rule, hfind, (readsWithin_inline rfl rfl hn hc h).of_le (Nat.le_succ n)⟩

theorem misses_of_exact {rule : Rule} {tag text : String} (hfind : grammar.find? name = some rule)
    (hn : rule.nesting = .inherit) (hc : rule.convert = id)
    (hs : rule.segments = .exact tag text :: segments) (hl : l ≠ (tag, .text text)) :
    Misses x n name (l :: ts) := by
  refine misses_of_gathers hfind hn hc ?_
  rw [hs]
  exact gathers_exact (fun _ hts => absurd (List.cons.inj hts).1 hl) fun _ => trivial

theorem misses_of_ofKind {rule : Rule} {tag key : String} (hfind : grammar.find? name = some rule)
    (hn : rule.nesting = .inherit) (hc : rule.convert = id)
    (hs : rule.segments = (Segment.ofKind tag).keyed key :: segments)
    (hkey : isReserved key = false) (hl : l.1 ≠ tag) : Misses x n name (l :: ts) := by
  refine misses_of_gathers hfind hn hc ?_
  rw [hs]
  refine gathers_ofKind hkey rfl (fun v _ hts => absurd ?_ hl) fun _ => trivial
  rw [(List.cons.inj hts).1]

theorem reads_of_takes (hs : s.shape = .reference name) (hn : s.options.nesting = .inherit)
    (h : Takes x n name ts v rest)
    (hM : M (({ data := some v } : Finding).keyed s.options.key) rest) :
    ReadsWithin x grammar Stop.TooDeep n s ts M F := by
  refine readsWithin_reference hs hn (h.mono (fun _ _ hf => hf) False.elim) ?_
  rintro _ _ ⟨rfl, rfl⟩
  exact hM

theorem reads_mark {text : String} (h : M {} ts) :
    ReadsWithin x grammar Stop.TooDeep n (punctuation text) (mark text :: ts) M F :=
  readsWithin_exact rfl rfl (fun _ hts => (List.cons.inj hts).2 ▸ h) fun hne => absurd rfl (hne ts)

theorem misses_mark {text : String} (hts : ∀ more, ts ≠ mark text :: more) (hF : F) :
    ReadsWithin x grammar Stop.TooDeep n (punctuation text) ts M F :=
  readsWithin_exact rfl rfl (fun more h => absurd h (hts more)) fun _ => hF

theorem chooses_of_takes {alternatives : List Segment} (h : Takes x n name ts v rest)
    (hM : M { data := some v } rest) :
    Chooses x grammar Stop.TooDeep n ts M F (.reference name :: alternatives) := by
  refine chooses_cons (h.mono ?_ id) False.elim
  rintro _ _ ⟨rfl, rfl⟩
  exact hM

theorem chooses_of_misses {alternatives : List Segment} (h : Misses x n name ts)
    (hrest : Chooses x grammar Stop.TooDeep n ts M F alternatives) :
    Chooses x grammar Stop.TooDeep n ts M F (.reference name :: alternatives) :=
  chooses_cons (h.mono (fun _ _ => False.elim) id) fun _ => hrest

/-- A rule of alternatives takes what the chosen one takes. -/
theorem takes_of_chooses {alternatives : List Segment}
    (hfind : grammar.find? name = some { name, segments := [.choice alternatives] })
    (htree : IsTree v) (h : Chooses x grammar Stop.TooDeep n ts
      (fun f r => f = { data := some v } ∧ r = rest) False alternatives) :
    Takes x (n + 1) name ts v rest := by
  obtain ⟨b, hb, hclose⟩ := htree.adds
  refine takes_of_gathers hfind rfl rfl
    (gathers_cons (readsWithin_choice rfl rfl (h.mono ?_ id)))
  rintro _ _ ⟨rfl, rfl⟩
  exact ⟨b, hb, gathers_nil ⟨by rw [hclose], rfl⟩⟩

/-! ## Shared parts -/

/-- Elements in parentheses. -/
theorem takes_list (hs : s.shape = (listOf name).shape) (hn : s.options.nesting = .inherit)
    (h : ∀ {ts v rest}, Derives (.one e) ts v rest → Marked rest → Takes x n name ts v rest)
    (hvs : Derives (.list e) ts vs rest)
    (hM : M (({ data := some (.list vs) } : Finding).keyed s.options.key) rest) :
    ReadsWithin x grammar Stop.TooDeep n s ts M False := by
  refine readsWithin_delimited (I := fun ts Q => ∃ vs rest,
    Derives (.separated e) ts vs (mark ")" :: rest) ∧ Q vs rest) hs hn ?_ ?_
  · cases hvs with
    | noItems => exact reads_mark (reads_mark hM)
    | items hvs =>
      refine reads_mark (misses_mark (fun more => ?_)
        ⟨fun ws r => ws = vs ∧ r = rest, ⟨vs, rest, hvs, rfl, rfl⟩, ?_⟩)
      · cases hvs with
        | last hv => exact hv.ne_mark (by decide) more
        | comma hv _ => exact hv.ne_mark (by decide) more
      · rintro _ _ ⟨rfl, rfl⟩
        exact hM
  · rintro ts Q ⟨vs, rest, hvs, hQ⟩
    cases hvs with
    | last hv =>
      exact reads_of_takes rfl rfl (h hv (marked_mark (by decide)))
        (misses_mark (fun more => by simp [mark]) (reads_mark hQ))
    | @comma _ _ v mid ws _ hv hws =>
      refine reads_of_takes rfl rfl (h hv (marked_mark (by decide))) (reads_mark ⟨Or.inr ?_,
        fun more last => Q (v :: more) last, ⟨ws, rest, hws, hQ⟩, fun _ _ hQ => hQ⟩)
      have := hv.length_le
      simp only [Category.shortest, List.length_cons] at this
      omega

/-- In a body no `else` stands between two elements. -/
theorem noElse_of_body (h : Derives (.body e) (mark "\x7b" :: ts) vs rest) : NoElse ts := by
  rintro more rfl
  rcases h.body_cases with ⟨h, -⟩ | ⟨h, -⟩ | ⟨v, mid, ws, -, hv, -⟩
  · simp [word, mark] at h
  · cases h
  · obtain ⟨l, mid, h, hl⟩ := hv.head
    exact hl.ne_else (List.cons.inj h).1.symm

/-- Elements up to a brace, behind the opening one. -/
theorem takes_body (hs : s.shape = .untilMatch (punctuation "\x7d") (.reference name))
    (hn : s.options.nesting = .inherit)
    (h : ∀ {ts v rest}, Derives (.one e) ts v rest → NoElse rest → Takes x n name ts v rest)
    (hvs : Derives (.body e) (mark "\x7b" :: ts) vs rest)
    (hM : M (({ data := some (.list vs) } : Finding).keyed s.options.key) rest) :
    ReadsWithin x grammar Stop.TooDeep n s ts M False := by
  refine readsWithin_untilMatch (I := fun ts Q => ∃ vs rest,
    Derives (.body e) (mark "\x7b" :: ts) vs rest ∧ Q vs rest) hs hn ?_
    (Q := fun ws r => ws = vs ∧ r = rest) ⟨vs, rest, hvs, rfl, rfl⟩ ?_
  · rintro ts Q ⟨vs, rest, hvs, hQ⟩
    rcases hvs.body_cases with ⟨rfl, rfl⟩ | ⟨rfl, rfl, rfl⟩ | ⟨v, mid, ws, rfl, hv, hws⟩
    · exact reads_mark hQ
    · exact misses_mark nofun ⟨fun _ => hQ, fun hts => absurd rfl hts⟩
    · refine misses_mark (hv.ne_mark (by decide)) ⟨?_, fun _ =>
        reads_of_takes rfl rfl (h hv (noElse_of_body hws)) ⟨Or.inr ?_,
          fun more last => Q (v :: more) last, ⟨ws, rest, hws, hQ⟩, fun _ _ hQ => hQ⟩⟩
      · rintro rfl
        obtain ⟨l, _, h, -⟩ := hv.head
        cases h
      · have := hv.length_le
        simp only [Category.shortest] at this
        omega
  · rintro _ _ ⟨rfl, rfl⟩
    exact hM

/-- What the rules take that refer to each other in circles. -/
structure Taken (x : Tokenized) (n : Nat) : Prop where
  statement : ∀ {ts v rest}, Derives (.one .statement) ts v rest → NoElse rest →
    Takes x n "statement" ts v rest
  function : ∀ {ts v rest}, Derives (.one .function) ts v rest → Takes x n "function" ts v rest
  argument : ∀ {ts v rest}, Derives (.one .argument) ts v rest → Marked rest →
    Takes x n "argument" ts v rest
  block : ∀ {ts vs rest}, Derives (.body .statement) ts vs rest →
    Takes x n "block" ts (.list vs) rest
  conditional : ∀ {ts v rest}, Derives .conditional ts v rest → NoElse rest →
    Takes x n "if" ts v rest
  expression : ∀ {ts v rest}, Derives (.one .expression) ts v rest → Marked rest →
    Takes x n "expression" ts v rest

/-- An expression in parentheses. -/
theorem takes_parenthesized (hs : s.shape = parenthesized.shape)
    (hn : s.options.nesting = .inherit) (h : Taken x n)
    (hv : Derives (.one .expression) ts v (mark ")" :: rest))
    (hM : M (({ data := some v } : Finding).keyed s.options.key) rest) :
    ReadsWithin x grammar Stop.TooDeep n s (mark "(" :: ts) M F :=
  readsWithin_between hs hn (reads_mark (reads_of_takes rfl rfl
    (h.expression hv (marked_mark (by decide))) (reads_mark hM)))

/-- The equals sign and an expression. -/
theorem takes_assigned {key : String} (hkey : isReserved key = false) (h : Taken x n)
    (hv : Derives (.one .expression) ts v rest) (hrest : Marked rest)
    (hsegments : Gathers x grammar Stop.TooDeep n kind (b.adopt { fields := [(key, v)] }) segments
      rest M F) :
    Gathers x grammar Stop.TooDeep n kind b (.optional (Rule.toSegment
      { name := name, segments := [equalsSign, expression.keyed key] }) :: segments)
      (equals :: ts) M F := by
  refine gathers_optional (G := False) rfl rfl (gathers_exact_head (gathers_cons ?_)) False.elim
  exact reads_of_takes rfl rfl (h.expression hv hrest)
    ⟨_, .field hkey rfl, gathers_nil ⟨_, .node, hsegments⟩⟩

/-- No equals sign. -/
theorem takes_unassigned {key : String} (hl : l ≠ equals)
    (hsegments : Gathers x grammar Stop.TooDeep n kind b segments (l :: ts) M F) :
    Gathers x grammar Stop.TooDeep n kind b (.optional (Rule.toSegment
      { name := name, segments := [equalsSign, expression.keyed key] }) :: segments)
      (l :: ts) M F :=
  gathers_optional (G := True) rfl rfl (gathers_exact
    (fun _ hts => absurd (List.cons.inj hts).1 hl) fun _ => trivial) fun _ => hsegments

/-! ## Expressions -/

theorem misses_paren (hl : l ≠ mark "(") : Misses x n "paren" (l :: ts) :=
  misses_of_gathers rfl rfl rfl (gathers_cons (readsWithin_between rfl rfl
    (misses_mark (fun _ hts => hl (List.cons.inj hts).1) trivial)))

theorem misses_atom (hl : ¬ StartsAtom l) : Misses x n "atom" (l :: ts) := by
  have hident : l.1 ≠ "identifier" := fun h => hl (Or.inl h)
  have hnumber : l.1 ≠ "number" := fun h => hl (Or.inr (Or.inl h))
  have hstring : l.1 ≠ "string" := fun h => hl (Or.inr (Or.inr (Or.inl h)))
  refine misses_of_gathers rfl rfl rfl (gathers_cons (readsWithin_choice rfl rfl ?_))
  refine chooses_of_misses (misses_of_ofKind rfl rfl rfl rfl rfl hident) ?_
  refine chooses_of_misses (misses_paren fun h => hl (Or.inr (Or.inr (Or.inr h)))) ?_
  refine chooses_of_misses (misses_of_ofKind rfl rfl rfl rfl rfl hnumber) ?_
  refine chooses_of_misses (misses_of_ofKind rfl rfl rfl rfl rfl hstring) ?_
  exact chooses_of_misses (misses_of_ofKind rfl rfl rfl rfl rfl hident) trivial

theorem misses_expression (hl : ¬ StartsAtom l) : Misses x n "expression" (l :: ts) := by
  refine misses_of_gathers rfl rfl rfl (gathers_cons (readsWithin_binary (I := fun _ _ => False)
    rfl rfl ?_ (fun _ _ => False.elim) fun _ _ _ => False.elim))
  exact readsWithin_reference rfl rfl (misses_atom hl) fun _ _ => False.elim

/-- A name that no list follows is no call. -/
theorem misses_call {name : TokenValue} (hts : NoList ts) :
    Misses x n "call" (ident name :: ts) := by
  refine misses_of_gathers rfl rfl rfl (gathers_ofKind_head rfl rfl (gathers_cons ?_))
  exact readsWithin_delimited (I := fun _ _ => False) rfl rfl (misses_mark hts trivial)
    fun _ _ => False.elim

theorem takes_leaf {kind key : String} {tag : String} {v : TokenValue}
    (hfind : grammar.find? name = some { name, kind, segments := [(Segment.ofKind tag).keyed key] })
    (hkey : isReserved key = false) :
    Takes x (n + 1) name ((tag, v) :: rest) (tree kind [(key, v.toValue)]) rest :=
  takes_of_gathers hfind rfl rfl (gathers_ofKind_head hkey rfl (gathers_nil ⟨rfl, rfl⟩))

section

variable (h : Taken x n)
include h

theorem takes_call {name : TokenValue} (hvs : Derives (.list .expression) ts vs rest) :
    Takes x (n + 1) "call" (ident name :: ts)
      (tree "call" [("callee", name.toValue), ("args", .list vs)]) rest := by
  refine takes_of_gathers rfl rfl rfl (gathers_ofKind_head rfl rfl (gathers_cons ?_))
  exact takes_list rfl rfl h.expression hvs ⟨_, .field rfl rfl, gathers_nil ⟨rfl, rfl⟩⟩

theorem takes_paren (hv : Derives (.one .expression) ts v (mark ")" :: rest)) :
    Takes x (n + 1) "paren" (mark "(" :: ts) v rest := by
  obtain ⟨b, hb, hclose⟩ := IsTree.adds hv.isTree
  refine takes_of_gathers rfl rfl rfl (gathers_cons ?_)
  exact takes_parenthesized rfl rfl h hv ⟨b, hb, gathers_nil ⟨by rw [hclose], rfl⟩⟩

/-- Only a name needs to know what follows it. -/
theorem takes_atom (hv : Derives .atom ts v rest) (hrest : NoList rest) :
    Takes x (n + 1) "atom" ts v rest := by
  refine takes_of_chooses rfl hv.isTree ?_
  cases hv with
  | call hvs => exact chooses_of_takes (takes_call h hvs).pred ⟨rfl, rfl⟩
  | paren hv =>
    refine chooses_of_misses (misses_of_ofKind rfl rfl rfl rfl rfl (by decide)) ?_
    exact chooses_of_takes (takes_paren h hv).pred ⟨rfl, rfl⟩
  | number =>
    refine chooses_of_misses (misses_of_ofKind rfl rfl rfl rfl rfl (by simp)) ?_
    refine chooses_of_misses (misses_paren (by simp [mark])) ?_
    exact chooses_of_takes (takes_leaf rfl rfl).pred ⟨rfl, rfl⟩
  | string =>
    refine chooses_of_misses (misses_of_ofKind rfl rfl rfl rfl rfl (by simp)) ?_
    refine chooses_of_misses (misses_paren (by simp [mark])) ?_
    refine chooses_of_misses (misses_of_ofKind rfl rfl rfl rfl rfl (by simp)) ?_
    exact chooses_of_takes (takes_leaf rfl rfl).pred ⟨rfl, rfl⟩
  | name =>
    refine chooses_of_misses (misses_call hrest) ?_
    refine chooses_of_misses (misses_paren (by simp [mark, ident])) ?_
    refine chooses_of_misses (misses_of_ofKind rfl rfl rfl rfl rfl (by simp [ident])) ?_
    refine chooses_of_misses (misses_of_ofKind rfl rfl rfl rfl rfl (by simp [ident])) ?_
    exact chooses_of_takes (takes_leaf rfl rfl).pred ⟨rfl, rfl⟩

end

theorem kind_of_isOperator (hl : IsOperator tiers l) : l.1 = "operator" := by
  obtain ⟨tier, htier, entry, hentry, rfl⟩ := hl
  have hall : ∀ tier ∈ tiers, ∀ entry ∈ tier.operators, entry.1 = "operator" := by decide
  exact hall tier htier entry hentry

/-- Behind an atom comes an operator or what follows the expression, and neither opens a list. -/
theorem noList_of_row {row : List (Lexeme × Value)} (h : Derives .row ts row rest)
    (hrest : Marked rest) : NoList ts := by
  rintro more rfl
  cases h with
  | done =>
    obtain ⟨text, more, h, htext⟩ := hrest
    simp only [mark, List.cons.injEq, Prod.mk.injEq, TokenValue.text.injEq] at h
    exact htext h.1.2.symm
  | operand hop => exact absurd (kind_of_isOperator hop) (by decide)

theorem takes_expression (h : Taken x n) (hv : Derives (.one .expression) ts v rest)
    (hrest : Marked rest) : Takes x (n + 1) "expression" ts v rest := by
  obtain ⟨b, hb, hclose⟩ := IsTree.adds hv.isTree
  cases hv with
  | expression hfirst hrow hgroups =>
    refine takes_of_gathers rfl rfl rfl (gathers_cons (readsWithin_binary (I := fun ts Q =>
      ∃ row rest, Derives .row ts row rest ∧ Marked rest ∧ Q row rest) rfl rfl ?_ ?_ ?_))
    · refine reads_of_takes rfl rfl (takes_atom h hfirst (noList_of_row hrow hrest)).pred ?_
      refine ⟨_, fun row' rest' => row' = _ ∧ rest' = rest, rfl, ⟨_, _, hrow, hrest, rfl, rfl⟩, ?_⟩
      rintro _ _ w ⟨rfl, rfl⟩ hw
      obtain rfl := hgroups.unique hw
      exact ⟨b, hb, gathers_nil ⟨by rw [hclose], rfl⟩⟩
    · rintro ts Q ⟨row, rest, hrow, -, hQ⟩ hnone
      cases hrow with
      | done => exact hQ
      | operand hop =>
        have hsome := isOperator_iff.1 hop
        rw [hnone _ _ rfl] at hsome
        cases hsome
    · rintro op mid Q ⟨row, rest, hrow, hrest, hQ⟩ hop
      cases hrow with
      | done =>
        obtain ⟨text, more, h, -⟩ := hrest
        have hkind := kind_of_isOperator (isOperator_iff.2 hop)
        rw [(List.cons.inj h).1] at hkind
        exact absurd hkind (by simp [mark])
      | operand _ hatom hrow =>
        refine reads_of_takes rfl rfl (takes_atom h hatom (noList_of_row hrow hrest)).pred
          ⟨Or.inr ?_, _, fun row last => Q ((op, _) :: row) last, rfl,
            ⟨_, _, hrow, hrest, hQ⟩, fun _ _ hQ => hQ⟩
        have := hatom.length_le
        simp only [Category.shortest] at this
        omega

/-! ## Statements -/

section

variable (h : Taken x n)
include h

theorem takes_function (hv : Derives (.one .function) ts v rest) :
    Takes x (n + 1) "function" ts v rest := by
  cases hv with
  | function hargs hbody =>
    refine takes_of_gathers rfl rfl rfl (gathers_exact_head (gathers_ofKind_head rfl rfl ?_))
    refine gathers_cons (takes_list rfl rfl h.argument hargs ⟨_, .field rfl rfl, ?_⟩)
    refine gathers_cons (reads_of_takes rfl rfl (h.block hbody) ⟨_, .field rfl rfl, ?_⟩)
    exact gathers_nil ⟨rfl, rfl⟩

theorem takes_argument (hv : Derives (.one .argument) ts v rest) (hrest : Marked rest) :
    Takes x (n + 1) "argument" ts v rest := by
  cases hv with
  | argument =>
    obtain ⟨text, more, rfl, -⟩ := hrest
    refine takes_of_gathers rfl rfl rfl (gathers_ofKind_head rfl rfl ?_)
    exact takes_unassigned (by simp [mark, equals]) (gathers_nil ⟨rfl, rfl⟩)
  | argumentDefault hv =>
    refine takes_of_gathers rfl rfl rfl (gathers_ofKind_head rfl rfl ?_)
    exact takes_assigned rfl h hv hrest (gathers_nil ⟨rfl, rfl⟩)

theorem takes_block (hvs : Derives (.body .statement) ts vs rest) :
    Takes x (n + 1) "block" ts (.list vs) rest := by
  obtain ⟨ts, rfl⟩ := hvs.head_body
  refine takes_of_gathers rfl rfl rfl (gathers_exact_head (gathers_cons ?_))
  exact takes_body rfl rfl h.statement hvs ⟨_, .list, gathers_nil ⟨rfl, rfl⟩⟩

theorem takes_class {name : TokenValue} (hvs : Derives (.body .function) ts vs rest) :
    Takes x (n + 1) "class" (word "class" :: ident name :: ts)
      (tree "class" [("name", name.toValue), ("members", .list vs)]) rest := by
  obtain ⟨ts, rfl⟩ := hvs.head_body
  refine takes_of_gathers rfl rfl rfl (gathers_exact_head (gathers_ofKind_head rfl rfl ?_))
  refine gathers_exact_head (gathers_cons ?_)
  exact takes_body rfl rfl (fun hv _ => h.function hv) hvs
    ⟨_, .field rfl rfl, gathers_nil ⟨rfl, rfl⟩⟩

theorem takes_else {c w : Value} {more : List Lexeme}
    (hc : Derives (.one .expression) ts c (mark ")" :: mid))
    (hvs : Derives (.body .statement) mid vs (word "else" :: more))
    (hw : Chooses x grammar Stop.TooDeep n more (fun f r => f = { data := some w } ∧ r = rest) False
      (["if", "block"].map .reference)) :
    Takes x (n + 1) "if" (word "if" :: mark "(" :: ts)
      (tree "if" [("condition", c), ("then", .list vs), ("else", w)]) rest := by
  refine takes_of_gathers rfl rfl rfl (gathers_exact_head ?_)
  refine gathers_cons (takes_parenthesized rfl rfl h hc ⟨_, .field rfl rfl, ?_⟩)
  refine gathers_cons (reads_of_takes rfl rfl (h.block hvs) ⟨_, .field rfl rfl, ?_⟩)
  refine gathers_optional (G := False) rfl rfl (gathers_exact_head
    (gathers_cons (readsWithin_choice rfl rfl (hw.mono ?_ id)))) False.elim
  rintro _ _ ⟨rfl, rfl⟩
  exact ⟨_, .field rfl rfl, gathers_nil ⟨_, .node, gathers_nil ⟨rfl, rfl⟩⟩⟩

theorem takes_conditional (hv : Derives .conditional ts v rest) (hrest : NoElse rest) :
    Takes x (n + 1) "if" ts v rest := by
  cases hv with
  | ifThen hc hvs =>
    refine takes_of_gathers rfl rfl rfl (gathers_exact_head ?_)
    refine gathers_cons (takes_parenthesized rfl rfl h hc ⟨_, .field rfl rfl, ?_⟩)
    refine gathers_cons (reads_of_takes rfl rfl (h.block hvs) ⟨_, .field rfl rfl, ?_⟩)
    exact gathers_optional (G := True) rfl rfl (gathers_exact
      (fun more hts => absurd hts (hrest more)) fun _ => trivial) fun _ => gathers_nil ⟨rfl, rfl⟩
  | ifElse hc hvs hws =>
    refine takes_else h hc hvs ?_
    obtain ⟨mid, rfl⟩ := hws.head_body
    refine chooses_of_misses (misses_of_exact rfl rfl rfl rfl (by simp [mark])) ?_
    exact chooses_of_takes (h.block hws) ⟨rfl, rfl⟩
  | elseIf hc hvs hw =>
    exact takes_else h hc hvs (chooses_of_takes (h.conditional hw hrest) ⟨rfl, rfl⟩)

omit h in
theorem takes_returnNothing : Takes x (n + 1) "return" (word "return" :: mark ";" :: rest)
    (tree "return" []) rest := by
  have hmark : ¬ StartsAtom (mark ";") := fun hl => hl.ne_mark (by decide) rfl
  refine takes_of_gathers rfl rfl rfl (gathers_exact_head (gathers_cons ?_))
  refine readsWithin_optional (G := True) rfl rfl
    (readsWithin_reference rfl rfl (misses_expression hmark) fun _ _ => False.elim) fun _ => ?_
  exact ⟨_, .nothing, gathers_exact_head (gathers_nil ⟨rfl, rfl⟩)⟩

theorem takes_returnValue (hv : Derives (.one .expression) ts v (mark ";" :: rest)) :
    Takes x (n + 1) "return" (word "return" :: ts) (tree "return" [("value", v)]) rest := by
  refine takes_of_gathers rfl rfl rfl (gathers_exact_head (gathers_cons ?_))
  refine readsWithin_optional (G := False) rfl rfl
    (reads_of_takes rfl rfl (h.expression hv (marked_mark (by decide))) ?_) False.elim
  exact ⟨_, .field rfl rfl, gathers_exact_head (gathers_nil ⟨rfl, rfl⟩)⟩

omit h in
theorem takes_letName {name : TokenValue} :
    Takes x (n + 1) "let" (word "let" :: ident name :: mark ";" :: rest)
      (tree "let" [("name", name.toValue)]) rest := by
  refine takes_of_gathers rfl rfl rfl (gathers_exact_head (gathers_ofKind_head rfl rfl ?_))
  refine takes_unassigned (by simp [mark, equals]) (gathers_exact_head ?_)
  exact gathers_nil ⟨rfl, rfl⟩

theorem takes_letValue {name : TokenValue}
    (hv : Derives (.one .expression) ts v (mark ";" :: rest)) :
    Takes x (n + 1) "let" (word "let" :: ident name :: equals :: ts)
      (tree "let" [("name", name.toValue), ("value", v)]) rest := by
  refine takes_of_gathers rfl rfl rfl (gathers_exact_head (gathers_ofKind_head rfl rfl ?_))
  refine takes_assigned rfl h hv (marked_mark (by decide)) (gathers_exact_head ?_)
  exact gathers_nil ⟨rfl, rfl⟩

theorem takes_evaluation (hv : Derives (.one .expression) ts v (mark ";" :: rest)) :
    Takes x (n + 1) "expression_statement" ts (tree "expression" [("expression", v)]) rest := by
  refine takes_of_gathers rfl rfl rfl (gathers_cons (reads_of_takes rfl rfl
    (h.expression hv (marked_mark (by decide))) ?_))
  exact ⟨_, .field rfl rfl, gathers_exact_head (gathers_nil ⟨rfl, rfl⟩)⟩

omit h in
/-- Alternatives that begin with a keyword fail before another token. -/
theorem chooses_behind (names : List String) {alternatives : List Segment}
    (hnames : ∀ name ∈ names, name ∈ ["function", "class", "if", "return", "let"])
    (hl : ∀ name ∈ names, l ≠ word name)
    (hrest : Chooses x grammar Stop.TooDeep n (l :: ts) M F alternatives) :
    Chooses x grammar Stop.TooDeep n (l :: ts) M F (names.map .reference ++ alternatives) := by
  induction names with
  | nil => exact hrest
  | cons name names ih =>
    have ⟨hname, hnames⟩ := List.forall_mem_cons.1 hnames
    have ⟨hlname, hl⟩ := List.forall_mem_cons.1 hl
    refine chooses_of_misses ?_ (ih hnames hl)
    simp only [List.mem_cons, List.not_mem_nil, or_false] at hname
    rcases hname with rfl | rfl | rfl | rfl | rfl <;> exact misses_of_exact rfl rfl rfl rfl hlname

/-- The alternatives in front of the right one fail at their first token. -/
theorem takes_statement (hv : Derives (.one .statement) ts v rest) (hrest : NoElse rest) :
    Takes x (n + 1) "statement" ts v rest := by
  refine takes_of_chooses rfl hv.isTree ?_
  cases hv with
  | declaration hv => exact chooses_of_takes (h.function hv) ⟨rfl, rfl⟩
  | classOf hvs =>
    exact chooses_behind ["function"] (by decide) (by simp [word])
      (chooses_of_takes (takes_class h hvs).pred ⟨rfl, rfl⟩)
  | branch hv =>
    obtain ⟨mid, rfl⟩ := hv.head_conditional
    exact chooses_behind ["function", "class"] (by decide) (by simp [word])
      (chooses_of_takes (h.conditional hv hrest) ⟨rfl, rfl⟩)
  | returnNothing =>
    exact chooses_behind ["function", "class", "if"] (by decide) (by simp [word])
      (chooses_of_takes takes_returnNothing.pred ⟨rfl, rfl⟩)
  | returnValue hv =>
    exact chooses_behind ["function", "class", "if"] (by decide) (by simp [word])
      (chooses_of_takes (takes_returnValue h hv).pred ⟨rfl, rfl⟩)
  | letName =>
    exact chooses_behind ["function", "class", "if", "return"] (by decide) (by simp [word])
      (chooses_of_takes takes_letName.pred ⟨rfl, rfl⟩)
  | letValue hv =>
    exact chooses_behind ["function", "class", "if", "return"] (by decide) (by simp [word])
      (chooses_of_takes (takes_letValue h hv).pred ⟨rfl, rfl⟩)
  | evaluation hv =>
    obtain ⟨l, mid, rfl, hl⟩ := hv.head_expression
    exact chooses_behind ["function", "class", "if", "return", "let"] (fun _ => id)
      (fun name _ => hl.ne_word name) (chooses_of_takes (takes_evaluation h hv).pred ⟨rfl, rfl⟩)

end

/-! ## Programs -/

/-- What is derived is taken by all rules, however many levels are left. -/
theorem taken (x : Tokenized) (n : Nat) : Taken x n := by
  induction n with
  | zero => exact ⟨fun _ _ => ⟨_, rfl, nofun⟩, fun _ => ⟨_, rfl, nofun⟩,
      fun _ _ => ⟨_, rfl, nofun⟩, fun _ => ⟨_, rfl, nofun⟩, fun _ _ => ⟨_, rfl, nofun⟩,
      fun _ _ => ⟨_, rfl, nofun⟩⟩
  | succ n ih => exact ⟨takes_statement ih, takes_function ih, takes_argument ih, takes_block ih,
      takes_conditional ih, takes_expression ih⟩

/-- Among statements no `else` stands between two of them. -/
theorem noElse_of_many (h : Derives (.many .statement) ts vs []) : NoElse ts := by
  rintro more rfl
  cases h with
  | more hv _ =>
    obtain ⟨l, mid, hts, hl⟩ := hv.head
    exact hl.ne_else (List.cons.inj hts).1.symm

theorem takes_program (x : Tokenized) (n : Nat) (hv : Derives .program ts v rest) :
    Takes x (n + 1) root ts v rest := by
  cases hv with
  | @program _ vs hvs =>
    refine takes_of_gathers rfl rfl rfl (gathers_cons (readsWithin_untilEnd
      (I := fun ts Q => ∃ vs, Derives (.many .statement) ts vs [] ∧ Q vs []) rfl rfl ?_ ?_
      (Q := fun ws r => ws = vs ∧ r = []) ⟨vs, hvs, rfl, rfl⟩ ?_))
    · rintro Q ⟨vs, hvs, hQ⟩
      cases hvs with
      | nothing => exact hQ
      | more hv _ =>
        obtain ⟨l, mid, hts, -⟩ := hv.head
        cases hts
    · rintro ts Q hts ⟨vs, hvs, hQ⟩
      cases hvs with
      | nothing => exact absurd rfl hts
      | @more _ _ v mid ws _ hv hws =>
        refine reads_of_takes rfl rfl ((taken x n).statement hv (noElse_of_many hws)) ⟨Or.inr ?_,
          fun more last => Q (v :: more) last, ⟨ws, hws, hQ⟩, fun _ _ hQ => hQ⟩
        have := hv.length_le
        simp only [Category.shortest] at this
        omega
    · rintro _ _ ⟨rfl, rfl⟩
      exact ⟨_, .field rfl rfl, gathers_nil ⟨rfl, rfl⟩⟩

end Descent.Sample
