import Descent.Pattern.Basic

/-!
# The written form of patterns

Reads the text of a pattern. The notation has literals, `.`, classes, the edges `^`, `$`, `\b`,
`\<` and `\>`, groups, alternatives, the repetitions `*`, `+`, `?` and `{n,m}` with their reluctant
forms, and the flags `i` (letters match in either case) and `s` (`.` takes a newline too). A text
outside of it is no pattern.
-/
namespace Descent.Pattern

/-- The settings that change how the rest of a group is read. -/
structure Flags where
  caseless : Bool := false
  dotAll : Bool := false

namespace Flags

/-- The set that is meant where `set` is written. -/
def apply (flags : Flags) (set : CharSet) : CharSet :=
  if flags.caseless then set.caseless else set

def dot (flags : Flags) : CharSet :=
  if flags.dotAll then .all else (CharSet.single '\n').complement

end Flags

/-! ## Repetitions -/

/-- Reads an unsigned decimal number; blanks around it do not count. -/
def readCountNumber (cs : List Char) : Option Nat × List Char :=
  let cs := cs.dropWhile isBlank
  let digits := cs.takeWhile Char.isDigit
  let value := digits.foldl (fun n c => 10 * n + (c.toNat - '0'.toNat)) 0
  (if digits.isEmpty then none else some value, (cs.dropWhile Char.isDigit).dropWhile isBlank)

/-- Reads what follows an opening brace: `n}`, `n,}` or `n,m}`. -/
def readBraces (cs : List Char) : Option (Count × List Char) :=
  match readCountNumber cs with
  | (some n, '}' :: cs) => some (⟨n, some n⟩, cs)
  | (some n, ',' :: '}' :: cs) => some (⟨n, none⟩, cs)
  | (some n, ',' :: cs) =>
    match readCountNumber cs with
    | (some m, '}' :: cs) => some (⟨n, some m⟩, cs)
    | _ => none
  | _ => none

/-- Reads a repetition, without the mark of its reluctant form. The outer `none` says that the text
begins no repetition, the inner one that it begins a malformed one. -/
def readCount : List Char → Option (Option (Count × List Char))
  | '*' :: cs => some (some (⟨0, none⟩, cs))
  | '+' :: cs => some (some (⟨1, none⟩, cs))
  | '?' :: cs => some (some (⟨0, some 1⟩, cs))
  | '\x7b' :: cs => some (readBraces cs)
  | _ => none

/-! ## Escapes -/

/-- What an escape stands for. -/
inductive Escape where
  | char (c : Char)
  | set (chars : CharSet)
  | edge (edge : Edge)

def hexValue (c : Char) : Option Nat :=
  if c.isDigit then some (c.toNat - '0'.toNat)
  else if 'a' ≤ c ∧ c ≤ 'f' then some (c.toNat - 'a'.toNat + 10)
  else if 'A' ≤ c ∧ c ≤ 'F' then some (c.toNat - 'A'.toNat + 10)
  else none

/-- The character whose code point has these hexadecimal digits. -/
def charOfHex (digits : List Char) : Option Char :=
  if digits.isEmpty then none
  else
    let value := digits.foldl (fun n c => n.bind fun n => (hexValue c).map (16 * n + ·)) (some 0)
    value.bind fun n => if n.isValidChar then some (Char.ofNat n) else none

/-- Reads a code point: `width` digits, or any number of them in braces. -/
def readHex (width : Nat) : List Char → Option (Char × List Char)
  | '\x7b' :: cs =>
    match cs.dropWhile (· ≠ '\x7d') with
    | [] => none
    | _ :: after => (charOfHex (cs.takeWhile (· ≠ '\x7d'))).map (·, after)
  | cs =>
    if cs.length < width then none else (charOfHex (cs.take width)).map (·, cs.drop width)

/-- Reads what follows a backslash. Punctuation stands for itself; a letter or digit without a
meaning of its own is an error. -/
def readEscape : List Char → Option (Escape × List Char)
  | [] => none
  | 's' :: cs => some (.set .blank, cs)
  | 'S' :: cs => some (.set CharSet.blank.complement, cs)
  | 'd' :: cs => some (.set .digit, cs)
  | 'D' :: cs => some (.set CharSet.digit.complement, cs)
  | 'w' :: cs => some (.set .word, cs)
  | 'W' :: cs => some (.set CharSet.word.complement, cs)
  | 'b' :: cs => some (.edge .word, cs)
  | '<' :: cs => some (.edge .wordStart, cs)
  | '>' :: cs => some (.edge .wordEnd, cs)
  | 'n' :: cs => some (.char '\n', cs)
  | 't' :: cs => some (.char '\t', cs)
  | 'r' :: cs => some (.char '\r', cs)
  | 'x' :: cs => (readHex 2 cs).map fun (c, cs) => (.char c, cs)
  | 'u' :: cs => (readHex 4 cs).map fun (c, cs) => (.char c, cs)
  | c :: cs =>
    if c.toNat < 128 ∧ !c.isAlphanum then some (.char c, cs) else none

/-! ## Classes -/

/-- Reads one member of a class, a character or a set. -/
def readMember : List Char → Option (Escape × List Char)
  | '\\' :: cs => readEscape cs
  | c :: cs => some (.char c, cs)
  | [] => none

/-- The set of a member that is not the beginning of a range. -/
def Escape.toSet? : Escape → Option CharSet
  | .char c => some (.single c)
  | .set chars => some chars
  | .edge _ => none

/-- Reads a member or a range of a class. A hyphen before the closing bracket is a character. -/
def readRange (cs : List Char) : Option (CharSet × List Char) :=
  match readMember cs with
  | none => none
  | some (first, cs) =>
    match cs with
    | '-' :: ']' :: _ => first.toSet?.map (·, cs)
    | '-' :: '-' :: _ => first.toSet?.map (·, cs)
    | '-' :: cs =>
      match first, readMember cs with
      | .char low, some (.char high, cs) =>
        if low ≤ high then some (.range low high, cs) else none
      | _, _ => none
    | _ => first.toSet?.map (·, cs)

/-- Reads the members of a class and its closing bracket. Nested classes and the double operators
are not part of the notation. -/
def readMembers : Nat → List CharSet → List Char → Option (List CharSet × List Char)
  | 0, _, _ => none
  | fuel + 1, sets, cs =>
    match cs with
    | ']' :: cs => some (sets, cs)
    | '[' :: _ | '&' :: '&' :: _ | '-' :: '-' :: _ | '~' :: '~' :: _ => none
    | _ => (readRange cs).bind fun (set, cs) => readMembers fuel (set :: sets) cs

/-- Reads a class behind its opening bracket. Hyphens come first as themselves, and so does a
closing bracket that stands in the first place. -/
def readClass (flags : Flags) (cs : List Char) : Option (CharSet × List Char) :=
  let (negated, cs) := match cs with
    | '^' :: cs => (true, cs)
    | _ => (false, cs)
  let hyphens := (cs.takeWhile (· = '-')).map CharSet.single
  let (first, cs) := match cs.dropWhile (· = '-') with
    | ']' :: cs => if hyphens.isEmpty then ([CharSet.single ']'], cs) else ([], ']' :: cs)
    | cs => ([], cs)
  (readMembers (cs.length + 1) (first ++ hyphens) cs).map fun (sets, cs) =>
    let set := flags.apply (.ofList sets)
    (if negated then set.complement else set, cs)

/-! ## Groups -/

/-- What the text behind an opening parenthesis begins: a group, or a change of flags for the rest
of the group around it. -/
inductive Opening where
  | group (flags : Flags)
  /-- A group that only holds its branches together. -/
  | clamp (flags : Flags)
  | change (flags : Flags)

/-- The flags once these letters have changed them. A letter turns its flag on, and off behind a
hyphen. No letter comes twice, and a hyphen does not come last. -/
def Flags.changed? (flags : Flags) (letters : List Char) : Option Flags :=
  let on := letters.takeWhile (· ≠ '-')
  let off := letters.dropWhile (· ≠ '-')
  let named := on ++ off.drop 1
  let value (letter : Char) (before : Bool) := on.contains letter || before && !off.contains letter
  if off = ['-'] ∨ ¬named.Nodup ∨ named.any fun c => c ≠ 'i' && c ≠ 's' then none
  else some ⟨value 'i' flags.caseless, value 's' flags.dotAll⟩

def readOpening (flags : Flags) : List Char → Option (Opening × List Char)
  | '?' :: ')' :: _ => none
  | '?' :: cs =>
    let letters := cs.takeWhile fun c => c ≠ ':' && c ≠ ')'
    match cs.drop letters.length with
    | ':' :: cs => (flags.changed? letters).map fun flags => (.clamp flags, cs)
    | ')' :: cs => (flags.changed? letters).map fun flags => (.change flags, cs)
    | _ => none
  | cs => some (.group flags, cs)

/-- What has been read of a group: its finished branches and the items of the branch that is being
read, the latest first. The last item can be repeated unless a change of flags followed it. -/
structure Group where
  flags : Flags
  branches : List Pattern := []
  items : List Pattern := []
  repeatable : Bool := false

namespace Group

def branch (g : Group) : Pattern := .sequence g.items.reverse

def pattern (g : Group) : Pattern :=
  match g.branches with
  | [] => g.branch
  | _ => .alternation (g.branch :: g.branches).reverse

def push (g : Group) (item : Pattern) : Group :=
  { g with items := item :: g.items, repeatable := true }

/-- From here on with other flags; there is nothing to repeat right behind the change. -/
def change (g : Group) (flags : Flags) : Group := { g with flags := flags, repeatable := false }

/-- Begins the next branch. -/
def split (g : Group) : Group := { flags := g.flags, branches := g.branch :: g.branches }

/-- Repeats the last item. -/
def repeatLast (g : Group) (greedy : Bool) (count : Count) : Option Group :=
  match g.items with
  | item :: items =>
    if g.repeatable && count.isValid then
      some { g with items := item.times count greedy :: items }
    else none
  | [] => none

end Group

def escapePattern (flags : Flags) : Escape → Pattern
  | .char c => .ofSet (flags.apply (.single c))
  | .set chars => .ofSet chars
  | .edge e => .edge e

/-- Reads up to the end of the group, which is left unread. Each step reads at least a character,
so the length of the text bounds the steps. -/
def readGroup : Nat → Group → List Char → Option (Pattern × List Char)
  | 0, _, _ => none
  | fuel + 1, g, cs =>
    match readCount cs with
    | some none => none
    | some (some (count, cs)) =>
      let (greedy, cs) := match cs with
        | '?' :: cs => (false, cs)
        | _ => (true, cs)
      (g.repeatLast greedy count).bind fun g => readGroup fuel g cs
    | none =>
      match cs with
      | [] => some (g.pattern, [])
      | ')' :: _ => some (g.pattern, cs)
      | '|' :: cs => readGroup fuel g.split cs
      | '(' :: cs =>
        match readOpening g.flags cs with
        | none => none
        | some (.change flags, cs) => readGroup fuel (g.change flags) cs
        | some (.group flags, cs) =>
          match readGroup fuel { flags := flags } cs with
          | some (inner, ')' :: cs) => readGroup fuel (g.push (.group inner)) cs
          | _ => none
        | some (.clamp flags, cs) =>
          match readGroup fuel { flags := flags } cs with
          | some (inner, ')' :: cs) => readGroup fuel (g.push inner) cs
          | _ => none
      | '[' :: cs =>
        (readClass g.flags cs).bind fun (set, cs) => readGroup fuel (g.push (.ofSet set)) cs
      | '.' :: cs => readGroup fuel (g.push (.ofSet g.flags.dot)) cs
      | '^' :: cs => readGroup fuel (g.push (.edge .textStart)) cs
      | '$' :: cs => readGroup fuel (g.push (.edge .textEnd)) cs
      | '\\' :: cs =>
        (readEscape cs).bind fun (e, cs) => readGroup fuel (g.push (escapePattern g.flags e)) cs
      | c :: cs => readGroup fuel (g.push (.ofSet (g.flags.apply (.single c)))) cs

/-- The pattern that a text writes, if it writes one. -/
def ofText? (text : String) : Option Pattern :=
  let cs := text.toList
  match readGroup (cs.length + 1) { flags := {} } cs with
  | some (p, []) => some p
  | _ => none

/-- The pattern that a text writes when it is put into a group behind `^`. The text is taken as it
is, so it may close that group itself. -/
def anchored? (text : String) : Option Pattern := ofText? ("^(?:" ++ text ++ ")")

end Descent.Pattern
