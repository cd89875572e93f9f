import Descent.Proofs.Reading

/-!
# Scans for a terminator

Reading up to a terminator goes in chunks: plain text up to a character that begins the terminator,
then a try at the terminator itself, then that one character if the terminator does not follow. The
scan behind it (`Scan.takeUntil`) goes character by character and knows in which of these it is. If
the escape is not the first character of the terminator that makes no difference, and the scan is
the plain one that tries the terminator before the escape at every character.

* `Cursor.inChunks_eq`: the chunks against the scan.
* `Scan.takeUntil_eq_plainUntil`, `takeUntil_scans`: the scan against the plain one.
* `takeUntil_cons_iff`: where the terminator is missed because of the text before it.
-/
namespace Descent

variable {terminator cs text : List Char} {escape : Option Char} {c : Char} {n : Nat}

/-! ## Scans character by character -/

namespace Scan

/-- The plain scan: at every character the terminator is tried first and the escape next. -/
def plainUntil (terminator : List Char) (escape : Option Char) :
    List Char → Option (List Char × Nat)
  | [] => none
  | c :: cs =>
    if literal terminator (c :: cs) then some ([], terminator.length)
    else if c ∈ escape then
      match cs with
      | [] => none
      | d :: ds => (plainUntil terminator escape ds).map fun (text, n) => (meaning d :: text, n + 2)
    else (plainUntil terminator escape cs).map fun (text, n) => (c :: text, n + 1)

theorem head?_of_literal (h : literal terminator (c :: cs) = true) : terminator.head? = some c := by
  obtain ⟨hne, rest, hrest⟩ := literal_iff.1 h
  cases terminator with
  | nil => exact absurd rfl hne
  | cons x xs =>
    cases hrest
    rfl

theorem literal_eq_false_of_head? (h : terminator.head? ≠ some c) :
    literal terminator (c :: cs) = false := by
  rw [Bool.eq_false_iff]
  exact fun hl => h (head?_of_literal hl)

/-- Where the terminator does not stand, it is all the same whether it is tried there. -/
theorem takeUntil_fresh_eq_inside (h : literal terminator cs = false) :
    takeUntil terminator escape .fresh cs = takeUntil terminator escape .inside cs := by
  cases cs with
  | nil => rfl
  | cons c cs => simp [takeUntil, h]

/-- The modes differ only where the escape may begin the terminator. -/
theorem takeUntil_eq_plainUntil (h : ∀ e ∈ escape, terminator.head? ≠ some e) {mode : Mode}
    (hmode : mode ≠ .escaped) (cs : List Char) :
    takeUntil terminator escape mode cs = plainUntil terminator escape cs := by
  fun_induction plainUntil terminator escape cs generalizing mode with
  | case1 => rfl
  | case2 c cs hliteral =>
    have hescape : escape ≠ some c := fun he => h c he (head?_of_literal hliteral)
    rw [takeUntil, if_neg hmode, if_pos ⟨.inr hescape, hliteral⟩]
  | case3 c hescape hliteral =>
    have hc : escape = some c := hescape
    rw [takeUntil, if_neg hmode, if_neg fun hl => hliteral hl.2, if_pos hc]
    rfl
  | case4 c hescape d ds hliteral ih =>
    have hc : escape = some c := hescape
    rw [takeUntil, if_neg hmode, if_neg fun hl => hliteral hl.2, if_pos hc, takeUntil,
      if_pos rfl, ih (by decide), Option.map_map]
    rfl
  | case5 c cs hliteral hescape ih =>
    have hc : escape ≠ some c := hescape
    have hnext : (if terminator.head? = some c then Mode.fresh else .inside) ≠ .escaped := by
      split <;> decide
    rw [takeUntil, if_neg hmode, if_neg fun hl => hliteral hl.2, if_neg hc, ih hnext]

/-- What a scan has read ends with the terminator. -/
theorem exists_body_of_takeUntil {mode : Mode}
    (h : takeUntil terminator escape mode cs = some (text, n)) :
    ∃ body, cs = body ++ terminator ++ cs.drop n ∧ n = body.length + terminator.length := by
  fun_induction takeUntil terminator escape mode cs generalizing text n with
  | case1 => cases h
  | case3 mode c cs _ hc =>
    cases h
    obtain ⟨rest, hrest⟩ := (literal_iff.1 hc.2).2
    refine ⟨[], ?_, by simp⟩
    rw [← hrest, List.drop_left]
    rfl
  | case2 c cs ih | case4 mode c cs _ _ _ ih | case5 mode c cs _ _ _ ih =>
    simp only [Option.map_eq_some_iff, Prod.mk.injEq, Prod.exists] at h
    obtain ⟨t, m, hm, -, rfl⟩ := h
    obtain ⟨body, hbody, hlength⟩ := ih hm
    refine ⟨c :: body, ?_, ?_⟩
    · rw [List.drop_succ_cons, List.cons_append, List.cons_append, ← hbody]
    · rw [List.length_cons, hlength]
      omega

theorem takeUntil_nil (escape : Option Char) (mode : Mode) (cs : List Char) :
    takeUntil [] escape mode cs = none := by
  fun_induction takeUntil [] escape mode cs with
  | case1 => rfl
  | case3 mode c cs _ hc => cases hc.2
  | case2 c cs ih | case4 mode c cs _ _ _ ih | case5 mode c cs _ _ _ ih =>
    rw [ih]
    rfl

theorem takeUntil_cons_of_plain (hescape : escape ≠ some c) (hfirst : terminator.head? ≠ some c) :
    takeUntil terminator escape .fresh (c :: cs) =
      (takeUntil terminator escape .inside cs).map fun found => (c :: found.1, found.2 + 1) := by
  rw [takeUntil, if_neg (by decide), if_neg (by simp [literal_eq_false_of_head? hfirst]),
    if_neg hescape, if_neg hfirst]

/-- Whether the terminator is tried at once makes a difference where it stands and its first
character is the escape. -/
theorem takeUntil_fresh_eq_inside_iff :
    takeUntil terminator escape .fresh cs = takeUntil terminator escape .inside cs ↔
      ¬ (escape.isSome = true ∧ escape = terminator.head? ∧ terminator <+: cs) := by
  cases hliteral : literal terminator cs with
  | false =>
    refine iff_of_true (takeUntil_fresh_eq_inside hliteral) ?_
    rintro ⟨hsome, hfirst, hprefix⟩
    have hne : terminator ≠ [] := by
      rintro rfl
      rw [hfirst] at hsome
      cases hsome
    rw [literal_iff.2 ⟨hne, hprefix⟩] at hliteral
    cases hliteral
  | true =>
    cases cs with
    | nil =>
      obtain ⟨hne, hprefix⟩ := literal_iff.1 hliteral
      exact absurd (List.prefix_nil.1 hprefix) hne
    | cons c cs =>
      have hhead := head?_of_literal hliteral
      have hfound : takeUntil terminator escape .fresh (c :: cs) =
          some ([], terminator.length) := by
        rw [takeUntil, if_neg (by decide), if_pos ⟨.inl rfl, hliteral⟩]
      rw [hfound, hhead]
      by_cases hescape : escape = some c
      · -- Inside of a chunk the terminator is read as an escape, which adds text or finds nothing.
        refine iff_of_false ?_ (not_not_intro ⟨by rw [hescape]; rfl, hescape, ?_⟩)
        · rw [takeUntil, if_neg (by decide), if_neg (by simp [hescape]), if_pos hescape]
          cases cs with
          | nil => exact nofun
          | cons d ds =>
            rw [takeUntil, if_pos rfl]
            cases takeUntil terminator escape .inside ds <;> exact nofun
        · exact (literal_iff.1 hliteral).2
      · refine iff_of_true ?_ fun hboth => hescape hboth.2.1
        rw [takeUntil, if_neg (by decide), if_pos ⟨.inr hescape, hliteral⟩]

/-! ### Chunks -/

/-- May the character stand in a chunk: does the terminator not begin with it? -/
def plain (terminator : List Char) (c : Char) : Bool := terminator.head? != some c

theorem plain_eq_true : plain terminator c = true ↔ terminator.head? ≠ some c := by
  simp [plain]

/-- A scan inside of a chunk goes on behind the chunk as if it began there. -/
theorem takeUntil_of_takeWhile {escaped : Bool}
    (h : takeWhile (plain terminator) escape escaped cs = (text, n)) :
    takeUntil terminator escape (if escaped then .escaped else .inside) cs =
      (takeUntil terminator escape .fresh (cs.drop n)).map
        fun found => (text ++ found.1, n + found.2) := by
  have hcons (c : Char) (t : List Char) (m : Nat) (found : List Char × Nat) :
      (c :: (t ++ found.1), m + found.2 + 1) = (c :: t ++ found.1, m + 1 + found.2) := by
    rw [List.cons_append, Nat.add_right_comm]
  fun_induction takeWhile (plain terminator) escape escaped cs generalizing text n with
  | case1 escaped =>
    cases h
    rfl
  | case2 c cs t m hchunk ih =>
    cases h
    rw [if_pos rfl, takeUntil, if_pos rfl, List.drop_succ_cons]
    rw [show Mode.inside = if false = true then Mode.escaped else .inside from rfl, ih hchunk,
      Option.map_map]
    exact congrArg (Option.map · _) (funext fun found => hcons _ _ _ found)
  | case3 escaped c cs hescaped hescape t m hchunk ih =>
    cases h
    have hinside : ¬ (Mode.inside = .fresh ∨ escape ≠ some c) := by simp [hescape]
    rw [if_neg hescaped, takeUntil, if_neg (by decide), if_neg fun hl => hinside hl.1,
      if_pos hescape, List.drop_succ_cons]
    rw [show Mode.escaped = if true = true then Mode.escaped else .inside from rfl, ih hchunk,
      Option.map_map]
    exact congrArg (Option.map · _) (funext fun found => by rw [Nat.add_right_comm]; rfl)
  | case4 escaped c cs hescaped hescape hplain t m hchunk ih =>
    cases h
    have hhead : terminator.head? ≠ some c := plain_eq_true.1 hplain
    rw [if_neg hescaped, takeUntil, if_neg (by decide),
      if_neg (by simp [literal_eq_false_of_head? hhead]), if_neg hescape, if_neg hhead,
      List.drop_succ_cons]
    rw [show Mode.inside = if false = true then Mode.escaped else .inside from rfl, ih hchunk,
      Option.map_map]
    exact congrArg (Option.map · _) (funext fun found => hcons _ _ _ found)
  | case5 escaped c cs hescaped hescape hplain =>
    cases h
    simp [takeUntil, hescaped, hescape]

/-- A chunk is empty before the first character of the terminator, and where an escape is all that
is left. -/
theorem takeWhile_eq_nil (h : takeWhile (plain terminator) escape false (c :: cs) = ([], n)) :
    (n = 0 ∧ terminator.head? = some c ∧ escape ≠ some c) ∨
      (n = 1 ∧ cs = [] ∧ escape = some c) := by
  rw [takeWhile, if_neg (by decide)] at h
  by_cases hescape : escape = some c
  · rw [if_pos hescape] at h
    cases cs with
    | nil =>
      cases h
      exact .inr ⟨rfl, rfl, hescape⟩
    | cons d ds =>
      rw [takeWhile, if_pos rfl] at h
      cases h
  · rw [if_neg hescape] at h
    by_cases hplain : plain terminator c = true
    · rw [if_pos hplain] at h
      cases h
    · rw [if_neg hplain] at h
      cases h
      rw [plain_eq_true, Classical.not_not] at hplain
      exact .inl ⟨rfl, hplain, hescape⟩

theorem length_le_of_takeWhile {keep : Char → Bool} {escaped : Bool}
    (h : takeWhile keep escape escaped cs = (text, n)) : text.length ≤ n := by
  fun_induction takeWhile keep escape escaped cs generalizing text n with
  | case1 | case5 =>
    cases h
    exact Nat.le_refl _
  | case2 c cs t m hchunk ih | case4 escaped c cs _ _ _ t m hchunk ih =>
    cases h
    exact Nat.succ_le_succ (ih hchunk)
  | case3 escaped c cs _ _ t m hchunk ih =>
    cases h
    exact Nat.le_succ_of_le (ih hchunk)

end Scan

namespace Cursor

/-! ## Chunk by chunk -/

variable {terminator text : String} {c d : Cursor} {rounds k : Nat}

/-- Reads up to the terminator chunk by chunk, and adds what it reads to the text. It is given a
number of rounds, and gives nothing if they are not enough. -/
def inChunks (terminator : String) (escape : Option Char) :
    Nat → String → Cursor → Option (EStateM.Result ReadError Cursor String)
  | 0, _, _ => none
  | rounds + 1, text, c =>
    if c.atEnd then some (.error (.unterminated terminator c.position) c)
    else
      match c.takeLiteral terminator with
      | (true, d) => some (.ok text d)
      | (false, d) =>
        let (chunk, d) := d.takeWhile (Scan.plain terminator.toList) escape
        if chunk.isEmpty then
          match d.next with
          | (some ch, d) => inChunks terminator escape rounds (text.push ch) d
          | (none, d) => inChunks terminator escape rounds text d
        else inChunks terminator escape rounds (text ++ chunk) d

/-- What a scan of what lies ahead means for the cursor: it passes over what was scanned, or in vain
over all that is left. -/
def scanned (terminator : String) (found : Option (List Char × Nat)) : Reading String := fun c =>
  match found with
  | some (text, n) => .ok (String.ofList text) (c.skip n)
  | none =>
    let c := c.skip c.rest.length
    .error (.unterminated terminator c.position) c

theorem takeUntil_eq_scanned (terminator : String) (escape : Option Char) (c : Cursor) :
    c.takeUntil terminator escape =
      c.scanned terminator (Scan.takeUntil terminator.toList escape .fresh c.rest) := rfl

theorem takeUntil_of_some {t : List Char} {n : Nat}
    (h : Scan.takeUntil terminator.toList escape .fresh c.rest = some (t, n)) :
    c.takeUntil terminator escape = .ok (String.ofList t) (c.skip n) := by
  rw [takeUntil_eq_scanned, h]
  rfl

theorem takeUntil_of_none
    (h : Scan.takeUntil terminator.toList escape .fresh c.rest = none) :
    c.takeUntil terminator escape =
      .error (.unterminated terminator (c.skip c.rest.length).position)
        (c.skip c.rest.length) := by
  rw [takeUntil_eq_scanned, h]
  rfl

/-- Reads up to the terminator and adds what it reads to the text. -/
def addUntil (terminator : String) (escape : Option Char) (text : String) : Reading String :=
  (text ++ ·) <$> takeUntil terminator escape

theorem addUntil_empty (terminator : String) (escape : Option Char) (c : Cursor) :
    c.addUntil terminator escape "" = c.takeUntil terminator escape := by
  simp only [addUntil, Functor.map, EStateM.map, String.empty_append]
  cases c.takeUntil terminator escape <;> rfl

theorem addUntil_of_some {t : List Char} {n : Nat}
    (h : Scan.takeUntil terminator.toList escape .fresh c.rest = some (t, n)) :
    c.addUntil terminator escape text = .ok (text ++ String.ofList t) (c.skip n) := by
  simp only [addUntil, Functor.map, EStateM.map, takeUntil_of_some h]

theorem addUntil_of_none
    (h : Scan.takeUntil terminator.toList escape .fresh c.rest = none) :
    c.addUntil terminator escape text =
      .error (.unterminated terminator (c.skip c.rest.length).position)
        (c.skip c.rest.length) := by
  simp only [addUntil, Functor.map, EStateM.map, takeUntil_of_none h]

/-- What lies behind some characters is read from behind them. -/
theorem addUntil_of_map {front : List Char} (hk : k ≤ c.rest.length)
    (h : Scan.takeUntil terminator.toList escape .fresh c.rest =
      (Scan.takeUntil terminator.toList escape .fresh (c.rest.drop k)).map
        fun found => (front ++ found.1, k + found.2)) :
    c.addUntil terminator escape text =
      (c.skip k).addUntil terminator escape (text ++ String.ofList front) := by
  cases hbehind : Scan.takeUntil terminator.toList escape .fresh (c.rest.drop k) with
  | none =>
    rw [hbehind] at h
    rw [addUntil_of_none h, addUntil_of_none (c := c.skip k) hbehind, skip_add, rest_skip,
      List.length_drop, Nat.add_sub_cancel' hk]
  | some found =>
    rw [hbehind] at h
    rw [addUntil_of_some h, addUntil_of_some (c := c.skip k) hbehind, skip_add,
      String.ofList_append, String.append_assoc]

/-- A round that does not end passes over some characters, and the scan goes on behind them. -/
theorem inChunks_of_no_literal (hmore : c.atEnd = false)
    (hliteral : Scan.literal terminator.toList c.rest = false) (escape : Option Char) :
    ∃ front k, 0 < k ∧ k ≤ c.rest.length ∧
      Scan.takeUntil terminator.toList escape .fresh c.rest =
        (Scan.takeUntil terminator.toList escape .fresh (c.rest.drop k)).map
          (fun found => (front ++ found.1, k + found.2)) ∧
      ∀ rounds text, inChunks terminator escape (rounds + 1) text c =
        inChunks terminator escape rounds (text ++ String.ofList front) (c.skip k) := by
  obtain ⟨⟨chunk, n⟩, hchunk⟩ :
      ∃ found, Scan.takeWhile (Scan.plain terminator.toList) escape false c.rest = found := ⟨_, rfl⟩
  have hn : n ≤ c.rest.length := by
    have := Scan.takeWhile_le (Scan.plain terminator.toList) escape false c.rest
    rwa [hchunk] at this
  have hbehind : Scan.takeUntil terminator.toList escape .fresh c.rest =
      (Scan.takeUntil terminator.toList escape .fresh (c.rest.drop n)).map
        fun found => (chunk ++ found.1, n + found.2) :=
    (Scan.takeUntil_fresh_eq_inside hliteral).trans (Scan.takeUntil_of_takeWhile hchunk)
  have hround (rounds : Nat) (text : String) : inChunks terminator escape (rounds + 1) text c =
      if (String.ofList chunk).isEmpty then
        match (c.skip n).next with
        | (some ch, d) => inChunks terminator escape rounds (text.push ch) d
        | (none, d) => inChunks terminator escape rounds text d
      else inChunks terminator escape rounds (text ++ String.ofList chunk) (c.skip n) := by
    simp [inChunks, hmore, takeLiteral, hliteral, takeWhile, hchunk]
  cases chunk with
  | cons x xs =>
    have hpos : 0 < n := Nat.lt_of_lt_of_le (Nat.succ_pos _) (Scan.length_le_of_takeWhile hchunk)
    refine ⟨x :: xs, n, hpos, hn, hbehind, fun rounds text => ?_⟩
    rw [hround, if_neg (by simp)]
  | nil =>
    cases hrest : c.rest with
    | nil => simp [atEnd, hrest] at hmore
    | cons x xs =>
      rw [hrest] at hchunk
      rcases Scan.takeWhile_eq_nil hchunk with ⟨rfl, hhead, hescape⟩ | ⟨rfl, rfl, hescape⟩
      · -- The terminator begins here and goes on otherwise, so its first character is text.
        refine ⟨[x], 1, Nat.one_pos, by simp, ?_, fun rounds text => ?_⟩
        · rw [hrest] at hliteral
          simp [Scan.takeUntil, hliteral, hescape, hhead, Nat.add_comm]
        · have hpush : text.push x = text ++ String.ofList [x] := by
            rw [← String.toList_inj]
            simp
          rw [hround, ← hpush]
          simp [next, hrest]
      · -- Nothing is behind the escape.
        refine ⟨[], 1, Nat.one_pos, by simp, hrest ▸ hbehind, fun rounds text => ?_⟩
        have hend : (c.skip 1).skip 1 = c.skip 1 :=
          skip_eq_self_of_atEnd (by simp [atEnd, hrest]) 1
        rw [hround]
        simp [next, hrest, hend]

/-- One round for every character that is left, and one more, are enough for all chunks. -/
theorem inChunks_eq (h : c.rest.length < rounds) :
    inChunks terminator escape rounds text c = some (c.addUntil terminator escape text) := by
  induction rounds generalizing c text with
  | zero => cases h
  | succ rounds ih =>
    cases hend : c.atEnd with
    | true =>
      have hnone : Scan.takeUntil terminator.toList escape .fresh c.rest = none := by
        rw [List.isEmpty_iff.1 hend]
        rfl
      rw [inChunks, if_pos hend, addUntil_of_none hnone, skip_eq_self_of_atEnd hend]
    | false =>
      cases hliteral : Scan.literal terminator.toList c.rest with
      | true =>
        have hfound : Scan.takeUntil terminator.toList escape .fresh c.rest =
            some ([], terminator.toList.length) := by
          cases hrest : c.rest with
          | nil => simp [atEnd, hrest] at hend
          | cons x xs =>
            rw [hrest] at hliteral
            simp [Scan.takeUntil, hliteral]
        rw [addUntil_of_some hfound]
        simp [inChunks, hend, takeLiteral, hliteral]
      | false =>
        obtain ⟨front, k, hpos, hk, hmap, hround⟩ := inChunks_of_no_literal hend hliteral escape
        have hfewer : (c.skip k).rest.length < rounds := by
          rw [rest_skip, List.length_drop]
          omega
        rw [hround, ih hfewer, addUntil_of_map hk hmap]

/-! ## Reading up to a terminator -/

/-- Reading up to a terminator is one scan from left to right, if the escape does not begin the
terminator: where nothing is left the terminator is missing, at the end of the text; where it stands
it is passed over, and the text so far is the result; an escape is passed over and the character
behind it is taken for what it means; and any other character is taken. It always ends, for its
chunks are done after one round for every character and one more; where it finds the terminator it
stops right behind it; and it never finds an empty one. -/
theorem takeUntil_scans (h : ∀ e ∈ escape, terminator.toList.head? ≠ some e) (c : Cursor) :
    c.takeUntil terminator escape =
      c.scanned terminator (Scan.plainUntil terminator.toList escape c.rest) ∧
    (∀ rounds, c.rest.length < rounds →
      inChunks terminator escape rounds "" c = some (c.takeUntil terminator escape)) ∧
    (∀ text d, c.takeUntil terminator escape = .ok text d →
      ∃ body, c.rest = body ++ terminator.toList ++ d.rest ∧
        d = c.skip (body.length + terminator.toList.length)) ∧
    (terminator = "" → c.takeUntil terminator escape = .error
      (.unterminated "" (c.skip c.rest.length).position) (c.skip c.rest.length)) := by
  refine ⟨?_, fun rounds hrounds => ?_, fun text d hd => ?_, ?_⟩
  · rw [takeUntil_eq_scanned, Scan.takeUntil_eq_plainUntil h (by decide)]
  · rw [inChunks_eq hrounds, addUntil_empty]
  · cases hfound : Scan.takeUntil terminator.toList escape .fresh c.rest with
    | none =>
      rw [takeUntil_of_none hfound] at hd
      cases hd
    | some found =>
      obtain ⟨body, hbody, hlength⟩ := Scan.exists_body_of_takeUntil hfound
      rw [takeUntil_of_some hfound] at hd
      cases hd
      exact ⟨body, hbody, by rw [hlength]⟩
  · rintro rfl
    exact takeUntil_of_none (Scan.takeUntil_nil escape .fresh c.rest)

/-- Between two delimiters with an escape in it, behind a false start of the closing one. -/
theorem takeUntil_scans_comment :
    let c : Cursor := .ofString "a*\\n*/b"
    (∀ e ∈ (some '\\' : Option Char), "*/".toList.head? ≠ some e) ∧
    c.takeUntil "*/" (some '\\') = .ok "a*\n" (c.skip 6) ∧
    inChunks "*/" (some '\\') 8 "" c = some (.ok "a*\n" (c.skip 6)) := by
  intro c
  have hescape : ∀ e ∈ (some '\\' : Option Char), "*/".toList.head? ≠ some e := by
    rintro e ⟨⟩
    decide
  obtain ⟨hscan, hchunks, -⟩ := takeUntil_scans hescape c
  have hfound : Scan.plainUntil "*/".toList (some '\\') c.rest = some (['a', '*', '\n'], 6) := by
    decide +kernel
  have hread : c.takeUntil "*/" (some '\\') = .ok "a*\n" (c.skip 6) := by
    rw [hscan, hfound, scanned, show String.ofList ['a', '*', '\n'] = "a*\n" by decide +kernel]
  refine ⟨hescape, hread, ?_⟩
  rw [hchunks 8 (by decide), hread]

/-! ## The text before the terminator -/

/-- Reading up to the terminator gives this text, and this is what it leaves. -/
def Finds (terminator : String) (escape : Option Char) (c : Cursor) (text rest : List Char) :
    Prop :=
  ∃ d, c.takeUntil terminator escape = .ok (String.ofList text) d ∧ d.rest = rest

/-- Reading up to the terminator comes to the end of the text without it. -/
def Misses (terminator : String) (escape : Option Char) (c : Cursor) : Prop :=
  ∃ d, c.takeUntil terminator escape = .error (.unterminated terminator d.position) d

theorem finds_iff {text rest : List Char} : c.Finds terminator escape text rest ↔
    ∃ n, Scan.takeUntil terminator.toList escape .fresh c.rest = some (text, n) ∧
      c.rest.drop n = rest := by
  constructor
  · rintro ⟨d, hd, hrest⟩
    cases hfound : Scan.takeUntil terminator.toList escape .fresh c.rest with
    | none =>
      rw [takeUntil_of_none hfound] at hd
      cases hd
    | some found =>
      rw [takeUntil_of_some hfound, EStateM.Result.ok.injEq, String.ofList_inj] at hd
      obtain ⟨rfl, rfl⟩ := hd
      exact ⟨found.2, rfl, hrest⟩
  · rintro ⟨n, hfound, hrest⟩
    exact ⟨c.skip n, takeUntil_of_some hfound, hrest⟩

theorem misses_iff : c.Misses terminator escape ↔
    Scan.takeUntil terminator.toList escape .fresh c.rest = none := by
  constructor
  · rintro ⟨d, hd⟩
    cases hfound : Scan.takeUntil terminator.toList escape .fresh c.rest with
    | none => rfl
    | some found =>
      rw [takeUntil_of_some hfound] at hd
      cases hd
  · intro hnone
    exact ⟨_, takeUntil_of_none hnone⟩

/-- A character that is neither the escape nor the first one of the terminator makes no difference
but for being read too, unless the terminator stands right behind it and begins with the escape. -/
theorem takeUntil_cons_iff {ch : Char} {s : List Char} (hescape : escape ≠ some ch)
    (hfirst : terminator.toList.head? ≠ some ch) (hc : c.rest = ch :: s) (hd : d.rest = s) :
    ((∀ text rest, c.Finds terminator escape (ch :: text) rest ↔
        d.Finds terminator escape text rest) ∧
      (c.Misses terminator escape ↔ d.Misses terminator escape)) ↔
    ¬ (escape.isSome = true ∧ escape = terminator.toList.head? ∧ terminator.toList <+: s) := by
  have hbehind : Scan.takeUntil terminator.toList escape .fresh c.rest =
      (Scan.takeUntil terminator.toList escape .inside s).map
        fun found => (ch :: found.1, found.2 + 1) := by
    rw [hc]
    exact Scan.takeUntil_cons_of_plain hescape hfirst
  have hfinds (text rest : List Char) : c.Finds terminator escape (ch :: text) rest ↔
      ∃ n, Scan.takeUntil terminator.toList escape .inside s = some (text, n) ∧
        s.drop n = rest := by
    rw [finds_iff, hbehind, hc]
    constructor
    · rintro ⟨n, hn, hrest⟩
      obtain ⟨⟨t, m⟩, hfound, heq⟩ := Option.map_eq_some_iff.1 hn
      cases heq
      exact ⟨m, hfound, hrest⟩
    · rintro ⟨m, hfound, hrest⟩
      exact ⟨m + 1, by rw [hfound]; rfl, hrest⟩
  have hmisses : c.Misses terminator escape ↔
      Scan.takeUntil terminator.toList escape .inside s = none := by
    rw [misses_iff, hbehind, Option.map_eq_none_iff]
  rw [← Scan.takeUntil_fresh_eq_inside_iff]
  constructor
  · rintro ⟨hfound, hmissed⟩
    cases hfresh : Scan.takeUntil terminator.toList escape .fresh s with
    | none =>
      have hmiss : d.Misses terminator escape := misses_iff.2 (by rw [hd, hfresh])
      exact (hmisses.1 (hmissed.2 hmiss)).symm
    | some found =>
      obtain ⟨text, n⟩ := found
      have hfind : d.Finds terminator escape text (s.drop n) :=
        finds_iff.2 ⟨n, by rw [hd, hfresh], by rw [hd]⟩
      obtain ⟨m, hinside, hrest⟩ := (hfinds text _).1 ((hfound text _).2 hfind)
      have hn := Scan.takeUntil_le hfresh
      have hm := Scan.takeUntil_le hinside
      have hlength := congrArg List.length hrest
      rw [List.length_drop, List.length_drop] at hlength
      rw [hinside, show m = n by omega]
  · intro hsame
    refine ⟨fun text rest => ?_, ?_⟩
    · rw [hfinds, finds_iff, hd, hsame]
    · rw [hmisses, misses_iff, hd, hsame]

/-- With a backslash for the escape a letter before a quoted text makes no difference. Where quotes
are escaped by doubling them, it makes one before a closing quote. -/
theorem takeUntil_cons_iff_quotes :
    let law (escape : Option Char) (c d : Cursor) : Prop :=
      (∀ text rest, c.Finds "\"" escape ('x' :: text) rest ↔ d.Finds "\"" escape text rest) ∧
        (c.Misses "\"" escape ↔ d.Misses "\"" escape)
    law (some '\\') (.ofString "x\\\"a\"") (.ofString "\\\"a\"") ∧
      ¬ law (some '"') (.ofString "x\"") (.ofString "\"") := by
  intro law
  constructor
  · exact (takeUntil_cons_iff (by decide) (by decide) rfl rfl).2 (by decide)
  · exact fun hlaw =>
      (takeUntil_cons_iff (s := ['"']) (by decide) (by decide) rfl rfl).1 hlaw (by decide)

/-- A letter may hide a terminator that stands right behind it. -/
theorem terminator_hidden :
    ¬ ∀ (terminator : String) (escape : Option Char) (ch : Char) (c d : Cursor),
      escape ≠ some ch → terminator.toList.head? ≠ some ch → c.rest = ch :: d.rest →
      (∀ text rest, c.Finds terminator escape (ch :: text) rest ↔
        d.Finds terminator escape text rest) ∧
      (c.Misses terminator escape ↔ d.Misses terminator escape) := by
  intro h
  have hlaw := (h "\"" (some '"') 'x' (.ofString "x\"") (.ofString "\"") (by decide) (by decide)
    rfl).2
  have hmissed : (ofString "x\"").Misses "\"" (some '"') := misses_iff.2 (by decide)
  have hfound : Scan.takeUntil "\"".toList (some '"') .fresh (ofString "\"").rest ≠ none := by
    decide
  exact hfound (misses_iff.1 (hlaw.1 hmissed))

end Cursor

end Descent
