/-!
# Scanning

What a reader takes from the front of a list of characters, as the text it stands for and the
number of characters taken. `takeWhile` takes characters as long as they are kept, `takeUntil`
takes everything up to and with a terminator. In both an escape character makes the next one
ordinary.

* `takeWhile_le`, `takeUntil_le`: nothing is taken that is not there.
-/
namespace Descent.Scan

/-- The length of a text in UTF-8. -/
def utf8Length : List Char → Nat
  | [] => 0
  | c :: cs => c.utf8Size + utf8Length cs

@[simp] theorem utf8Length_nil : utf8Length [] = 0 := rfl

@[simp] theorem utf8Length_cons (c : Char) (cs : List Char) :
    utf8Length (c :: cs) = c.utf8Size + utf8Length cs := rfl

theorem utf8Length_append (cs ds : List Char) :
    utf8Length (cs ++ ds) = utf8Length cs + utf8Length ds := by
  induction cs with
  | nil => simp
  | cons c cs ih => simp only [List.cons_append, utf8Length_cons, ih, Nat.add_assoc]

/-- What is left behind the first `n` bytes of the UTF-8 form. -/
def dropBytes : Nat → List Char → List Char
  | 0, cs => cs
  | _, [] => []
  | n + 1, c :: cs => dropBytes (n + 1 - c.utf8Size) cs

@[simp] theorem dropBytes_zero (cs : List Char) : dropBytes 0 cs = cs := by
  cases cs <;> rfl

theorem dropBytes_utf8Length_append (cs ds : List Char) :
    dropBytes (utf8Length cs) (cs ++ ds) = ds := by
  induction cs with
  | nil => simp
  | cons c cs ih =>
    have h := c.utf8Size_pos
    obtain ⟨n, hn⟩ : ∃ n, c.utf8Size + utf8Length cs = n + 1 :=
      ⟨_, (Nat.succ_pred (by omega)).symm⟩
    rw [utf8Length_cons, hn, List.cons_append, dropBytes, ← hn]
    simpa using ih

/-- Does the text stand at the front? The empty text never does. -/
def literal (text cs : List Char) : Bool := !text.isEmpty && text.isPrefixOf cs

theorem literal_iff {text cs : List Char} :
    literal text cs = true ↔ text ≠ [] ∧ text <+: cs := by
  simp [literal]

/-- What an escaped character stands for: `n` is a newline, all else is itself. -/
def meaning (c : Char) : Char := if c = 'n' then '\n' else c

/-- Takes characters while they are kept. An escape is taken with the next character, whatever
that is; an escape with nothing behind it is taken and adds nothing. `escaped` says that the
character before was such an escape. -/
def takeWhile (keep : Char → Bool) (escape : Option Char) (escaped : Bool) :
    List Char → List Char × Nat
  | [] => ([], 0)
  | c :: cs =>
    if escaped then
      let (text, n) := takeWhile keep escape false cs
      (meaning c :: text, n + 1)
    else if escape = some c then
      let (text, n) := takeWhile keep escape true cs
      (text, n + 1)
    else if keep c then
      let (text, n) := takeWhile keep escape false cs
      (c :: text, n + 1)
    else ([], 0)

theorem takeWhile_le (keep : Char → Bool) (escape : Option Char) (escaped : Bool)
    (cs : List Char) : (takeWhile keep escape escaped cs).2 ≤ cs.length := by
  fun_induction takeWhile keep escape escaped cs <;> simp_all

/-- Where a scan for a terminator stands: at a point where the terminator is looked for before
the escape, in the midst of plain text, or behind an escape. -/
inductive Mode where
  | fresh
  | inside
  | escaped
  deriving DecidableEq, Repr

/-- Takes everything up to the terminator and the terminator itself; `none` if it never comes.

A character that can begin both the terminator and an escape is tried as the terminator only at
the beginning and behind a false start of the terminator, and elsewhere is an escape. -/
def takeUntil (terminator : List Char) (escape : Option Char) (mode : Mode) :
    List Char → Option (List Char × Nat)
  | [] => none
  | c :: cs =>
    if mode = .escaped then
      (takeUntil terminator escape .inside cs).map fun (text, n) => (meaning c :: text, n + 1)
    else if (mode = .fresh ∨ escape ≠ some c) ∧ literal terminator (c :: cs) then
      some ([], terminator.length)
    else if escape = some c then
      (takeUntil terminator escape .escaped cs).map fun (text, n) => (text, n + 1)
    else
      (takeUntil terminator escape (if terminator.head? = some c then .fresh else .inside) cs).map
        fun (text, n) => (c :: text, n + 1)

theorem takeUntil_le {terminator : List Char} {escape : Option Char} {mode : Mode}
    {cs text : List Char} {n : Nat}
    (h : takeUntil terminator escape mode cs = some (text, n)) : n ≤ cs.length := by
  fun_induction takeUntil terminator escape mode cs generalizing text n with
  | case1 => simp at h
  | case3 mode c cs _ hc =>
    simp only [Option.some.injEq, Prod.mk.injEq] at h
    exact h.2 ▸ (literal_iff.1 hc.2).2.length_le
  | case2 c cs ih | case4 mode c cs _ _ _ ih | case5 mode c cs _ _ _ ih =>
    simp only [Option.map_eq_some_iff, Prod.mk.injEq, Prod.exists] at h
    obtain ⟨t, m, hm, -, rfl⟩ := h
    have := ih hm
    simp only [List.length_cons]; omega

end Descent.Scan
