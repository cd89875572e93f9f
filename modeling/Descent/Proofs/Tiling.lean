import Descent.Proofs.Backtracking
import Descent.Proofs.Skipped

/-!
# Tokens that tile their text

`Tokenizes` reads a text token by token and sets no bound on the steps: one rule for each thing that
can stand at the cursor. A lexer that is given steps enough does the same, so its loops come to an
end. Without skipped kinds each token begins where the one before it ended, from the start of the
text to its end; and skipped kinds only leave tokens out.

* `Tokenizes.eq`, `tokenizes_tokenize`: reading without a bound has one result, that of `tokenize`.
* `Tokenizes.tiles`: the tokens of a lexer that skips nothing lie end to end.
* `Tokenizes.filter`: skipping is leaving out what is of a skipped kind.
* `tokenize_tiles`: all of this for a whole text.
-/
namespace Descent

/-- What an operation gives, without the state that it ends in. -/
def resultOf {ε σ α : Type} : EStateM.Result ε σ α → Except ε α
  | .ok a _ => .ok a
  | .error e _ => .error e

/-- The spans of the tokens lie end to end between the two positions, and none is empty. -/
def Tiles : Position → List Token → Position → Prop
  | p, [], q => p = q
  | p, t :: ts, q =>
    t.span.start = p ∧ p.offset < t.span.stop.offset ∧ Tiles t.span.stop ts q

namespace Lexer

variable {lexer : Lexer} {c d : Cursor}

/-- What is read from the cursor on, token by token. -/
inductive Tokenizes (lexer : Lexer) : Cursor → Except ReadError (List Token) → Prop
  | finished {c : Cursor} (hend : c.atEnd = true) : Tokenizes lexer c (.ok [])
  | refused {c d : Cursor} {e : ReadError} (hend : c.atEnd = false)
    (hread : readWith lexer.forms c = .error e d) : Tokenizes lexer c (.error e)
  | skipped {c d : Cursor} {t : Token} {r : Except ReadError (List Token)}
    (hend : c.atEnd = false) (hread : readWith lexer.forms c = .ok (some t) d)
    (hkind : lexer.skips t.kind = true) (h : Tokenizes lexer d r) : Tokenizes lexer c r
  | token {c d : Cursor} {t : Token} {r : Except ReadError (List Token)}
    (hend : c.atEnd = false) (hread : readWith lexer.forms c = .ok (some t) d)
    (hkind : lexer.skips t.kind = false) (h : Tokenizes lexer d r) :
    Tokenizes lexer c (r.map (t :: ·))
  | unexpected {c d : Cursor} {e : ReadError} (hend : c.atEnd = false)
    (hread : readWith lexer.forms c = .ok none c) (hstray : lexer.readStray c = .error e d) :
    Tokenizes lexer c (.error e)
  | stray {c d : Cursor} {t : Token} {r : Except ReadError (List Token)} (hend : c.atEnd = false)
    (hread : readWith lexer.forms c = .ok none c) (hstray : lexer.readStray c = .ok (.stray t) d)
    (h : Tokenizes lexer d r) : Tokenizes lexer c (r.map (t :: ·))

/-! ## Reading ends -/

/-- What stands at the cursor decides the rule. -/
theorem Tokenizes.eq {r r' : Except ReadError (List Token)} (h : lexer.Tokenizes c r)
    (h' : lexer.Tokenizes c r') : r = r' := by
  induction h generalizing r' with
  | finished hend => cases h' <;> simp_all
  | refused hend hread => cases h' <;> simp_all
  | unexpected hend hread hstray => cases h' <;> simp_all
  | skipped hend hread hkind _ ih =>
    cases h' with
    | skipped _ hread' _ h' => rw [hread] at hread'; cases hread'; exact ih h'
    | _ => simp_all
  | token hend hread hkind _ ih =>
    cases h' with
    | token _ hread' _ h' => rw [hread] at hread'; cases hread'; rw [ih h']
    | _ => simp_all
  | stray hend hread hstray _ ih =>
    cases h' with
    | stray _ _ hstray' h' => rw [hstray] at hstray'; cases hstray'; rw [ih h']
    | _ => simp_all

/-- How reading goes on behind what a lexer found next. -/
def Continues (lexer : Lexer) (c : Cursor) : EStateM.Result ReadError Cursor Lexed → Prop
  | .ok .finished _ => lexer.Tokenizes c (.ok [])
  | .ok (.token t) d | .ok (.stray t) d =>
    ∀ r, lexer.Tokenizes d r → lexer.Tokenizes c (r.map (t :: ·))
  | .error e _ => lexer.Tokenizes c (.error e)

/-- What comes behind a skipped token comes behind what lies before it. -/
theorem Continues.skipped {t : Token} {result : EStateM.Result ReadError Cursor Lexed}
    (hend : c.atEnd = false) (hread : readWith lexer.forms c = .ok (some t) d)
    (hkind : lexer.skips t.kind = true) (h : lexer.Continues d result) :
    lexer.Continues c result := by
  unfold Continues at *
  split at h
  · exact .skipped hend hread hkind h
  · exact fun r hr => .skipped hend hread hkind (h r hr)
  · exact fun r hr => .skipped hend hread hkind (h r hr)
  · exact .skipped hend hread hkind h

theorem Continues.of_skips {result : EStateM.Result ReadError Cursor Lexed}
    (hskips : lexer.Skips c d) (h : lexer.Continues d result) : lexer.Continues c result := by
  induction hskips with
  | here => exact h
  | @skip c d e t hread hkind _ ih =>
    have hmoved : Cursor.Moved c (readWith lexer.forms c) := moved_readWith lexer.forms c
    rw [hread] at hmoved
    exact (ih h).skipped (Cursor.Reaches.atEnd_eq_false hmoved) hread hkind

theorem continues_readStray (hend : c.atEnd = false) (hread : readWith lexer.forms c = .ok none c) :
    lexer.Continues c (lexer.readStray c) := by
  cases hstray : lexer.readStray c with
  | error e d => exact .unexpected hend hread hstray
  | ok l d =>
    rcases readStray_cases hstray with ⟨hend', -⟩ | ⟨t, rfl, -, -⟩
    · rw [hend] at hend'; cases hend'
    · exact fun r hr => .stray hend hread hstray hr

theorem continues_readHere
    (hkind : ∀ t d, lexer.readHere c = .ok (.token t) d → lexer.skips t.kind = false) :
    lexer.Continues c (lexer.readHere c) := by
  have hmoved := moved_readWith lexer.forms c
  unfold readHere at *
  split
  · next hend => exact .finished hend
  · next hend =>
    have hend : c.atEnd = false := by simpa using hend
    split <;> rename_i hread <;> rw [hread] at hmoved
    · next t d =>
      have hkept := hkind t d (by simp [hend, hread])
      exact fun r hr => .token hend hread hkept hr
    · obtain rfl := hmoved
      exact continues_readStray hend hread
    · exact .refused hend hread

/-- The loop over skipped tokens comes to the next token that is kept, or to why there is none. -/
theorem continues_read (lexer : Lexer) (c : Cursor) : lexer.Continues c (lexer.read c) := by
  obtain ⟨e, hskips, hread, hkind⟩ := lexer.skips_read c
  rw [hread]
  exact (continues_readHere hkind).of_skips hskips

/-- The loop over the tokens of a text ends before its steps run out, as each token takes a
character. -/
theorem tokenizes_readAll {fuel : Nat} (h : c.rest.length ≤ fuel) :
    lexer.Tokenizes c (resultOf (lexer.readAll fuel c)) := by
  induction fuel generalizing c with
  | zero =>
    have hend : c.atEnd = true := by simpa [Cursor.atEnd] using h
    exact .finished hend
  | succ fuel ih =>
    have hnext := lexer.continues_read c
    have hmoved := lexer.outcome_read c
    simp only [readAll, bind_apply]
    cases hread : lexer.read c with
    | error e d => rw [hread] at hnext; exact hnext
    | ok l d =>
      rw [hread] at hnext hmoved
      cases l with
      | finished => exact hnext
      | token t | stray t =>
        have hlt := Cursor.Reaches.length_le (show Cursor.Reaches 1 c d from hmoved)
        have hrest := hnext _ (ih (show d.rest.length ≤ fuel by omega))
        simp only [Lexed.token?, Functor.map, EStateM.map]
        cases hall : lexer.readAll fuel d <;> rw [hall] at hrest <;> exact hrest

theorem tokenizes_tokenize (lexer : Lexer) (text : String) :
    lexer.Tokenizes (.ofString text) (lexer.tokenize text) := by
  have h : lexer.Tokenizes (.ofString text) (resultOf (lexer.readAll _ (.ofString text))) :=
    tokenizes_readAll (Nat.le_refl (Cursor.ofString text).rest.length)
  unfold tokenize
  simp only
  cases hr : lexer.readAll (Cursor.ofString text).rest.length (.ofString text) <;> rw [hr] at h <;>
    exact h

/-! ## Tokens lie end to end -/

theorem rest_of_atEnd (h : c.atEnd = true) : c.rest = [] := List.isEmpty_iff.1 h

/-- A token that was read covers what was passed over, and that is not nothing. -/
theorem tiles_cons {t : Token} {ts : List Token} {q : Position}
    (hspan : t.span = ⟨c.position, d.position⟩) (hmoved : Cursor.Reaches 1 c d)
    (h : Tiles d.position ts q) : Tiles c.position (t :: ts) q := by
  have hlt := hmoved.offset_le
  simp only [Tiles, hspan, true_and]
  exact ⟨by omega, h⟩

/-- Where reading stops does not depend on where in the text it began. -/
theorem finish_of_reaches {k : Nat} (h : Cursor.Reaches k c d) :
    d.position.after d.rest = c.position.after c.rest := by
  obtain ⟨n, -, -, rfl⟩ := h
  rw [Cursor.rest_skip, Cursor.skip, ← Position.after_append, List.take_append_drop]

theorem Tokenizes.tiles (hspans : lexer.KeepsSpans) (hskip : lexer.skipped = [])
    {r : Except ReadError (List Token)} (h : lexer.Tokenizes c r) {tokens : List Token}
    (hr : r = .ok tokens) : Tiles c.position tokens (c.position.after c.rest) := by
  induction h generalizing tokens with
  | finished hend =>
    cases hr
    rw [rest_of_atEnd hend]
    rfl
  | refused => cases hr
  | unexpected => cases hr
  | skipped _ _ hkind => simp [skips, hskip] at hkind
  | @token c d t r _ hread _ _ ih =>
    cases r with
    | error e => cases hr
    | ok ts =>
      cases hr
      have hmoved : Cursor.Moved c (readWith lexer.forms c) := moved_readWith lexer.forms c
      rw [hread] at hmoved
      rw [← finish_of_reaches hmoved]
      exact tiles_cons (span_of_readWith hspans hread) hmoved (ih rfl)
  | @stray c d t r hend _ hstray _ ih =>
    cases r with
    | error e => cases hr
    | ok ts =>
      cases hr
      have hmoved := moved_readStray hstray
      rw [← finish_of_reaches hmoved]
      rcases readStray_cases hstray with ⟨-, hl⟩ | ⟨u, hl, -, hspan⟩
      · cases hl
      · cases hl
        exact tiles_cons hspan hmoved (ih rfl)

/-! ## Skipping leaves tokens out -/

/-- The lexer that skips nothing and is otherwise the same. -/
def unskipping (lexer : Lexer) : Lexer := { lexer with skipped := [] }

/-- The tokens of kinds that are not skipped. -/
def unskipped (lexer : Lexer) (tokens : List Token) : List Token :=
  tokens.filter fun t => !lexer.skips t.kind

theorem unskipped_cons_of_skips {t : Token} (h : lexer.skips t.kind = true) (ts : List Token) :
    lexer.unskipped (t :: ts) = lexer.unskipped ts := by
  simp [unskipped, h]

theorem unskipped_cons {t : Token} (h : lexer.skips t.kind = false) (ts : List Token) :
    lexer.unskipped (t :: ts) = t :: lexer.unskipped ts := by
  simp [unskipped, h]

/-- A token that is kept is kept in front of those that are kept behind it. -/
theorem map_unskipped_cons {t : Token} (h : lexer.skips t.kind = false)
    (r : Except ReadError (List Token)) :
    (r.map (t :: ·)).map lexer.unskipped = (r.map lexer.unskipped).map (t :: ·) := by
  cases r with
  | error e => rfl
  | ok ts => exact congrArg Except.ok (unskipped_cons h ts)

theorem Tokenizes.filter (hunknown : lexer.unknown = .emit → lexer.skips unknownKind = false)
    {r : Except ReadError (List Token)} (h : lexer.unskipping.Tokenizes c r) :
    lexer.Tokenizes c (r.map lexer.unskipped) := by
  induction h with
  | finished hend => exact .finished hend
  | refused hend hread => exact .refused hend hread
  | unexpected hend hread hstray => exact .unexpected hend hread hstray
  | skipped _ _ hkind => simp [skips, unskipping] at hkind
  | @token c d t r hend hread _ _ ih =>
    cases hkind : lexer.skips t.kind with
    | false =>
      rw [map_unskipped_cons hkind]
      exact .token hend hread hkind ih
    | true =>
      have hr : (r.map (t :: ·)).map lexer.unskipped = r.map lexer.unskipped := by
        cases r with
        | error e => rfl
        | ok ts => exact congrArg Except.ok (unskipped_cons_of_skips hkind ts)
      rw [hr]
      exact .skipped hend hread hkind ih
  | @stray c d t r hend hread hstray _ ih =>
    have hemit : lexer.unknown = .emit := by
      unfold readStray at hstray
      split at hstray
      · cases hstray
      · simp only [unskipping] at hstray
        split at hstray
        · cases hstray
        · next hunknown => exact hunknown
    have hkind : lexer.skips t.kind = false := by
      rcases readStray_cases hstray with ⟨-, hl⟩ | ⟨u, hl, hkind, -⟩
      · cases hl
      · cases hl
        rw [hkind]
        exact hunknown hemit
    rw [map_unskipped_cons hkind]
    exact .stray hend hread hstray ih

end Lexer

open Lexer

/-- Reading a text token by token comes to an end, with or without an error, and its one result is
what the lexer gives. If no adjustment moves tokens and nothing is skipped, then the tokens lie end
to end from the start of the text to its end, and none is empty. A lexer that skips some kinds gives
the tokens of the same lexer without skips that are not of these kinds, and fails with the same
error where that one fails. The tokens made from characters that begin no other are never skipped,
so their kind must not be among these. -/
theorem tokenize_tiles (lexer : Lexer) (text : String) :
    (∀ r, lexer.Tokenizes (.ofString text) r ↔ r = lexer.tokenize text) ∧
    (lexer.KeepsSpans → lexer.skipped = [] → ∀ tokens, lexer.tokenize text = .ok tokens →
      Tiles .start tokens (Position.start.after text.toList)) ∧
    ((lexer.unknown = .emit → unknownKind ∉ lexer.skipped) →
      lexer.tokenize text = (lexer.unskipping.tokenize text).map
        (·.filter fun t => !lexer.skipped.contains t.kind)) := by
  refine ⟨fun r => ⟨fun h => h.eq (tokenizes_tokenize lexer text), ?_⟩, ?_, ?_⟩
  · intro h
    rw [h]
    exact tokenizes_tokenize lexer text
  · intro hspans hskip tokens htokens
    exact (tokenizes_tokenize lexer text).tiles hspans hskip htokens
  · intro hunknown
    have hkept : lexer.unknown = .emit → lexer.skips unknownKind = false := by
      intro hemit
      simpa [skips] using hunknown hemit
    exact (tokenizes_tokenize lexer text).eq ((tokenizes_tokenize _ text).filter hkept)

/-- A word, a blank, a character that begins no token, and a word; the blank is left out. -/
theorem tokenize_tiles_stray :
    let lexer : Lexer := { wordsAndBlanks with unknown := .emit }
    ∃ tokens, lexer.unskipping.tokenize "a ?a" = .ok tokens ∧
      tokens.map Token.kind = ["word", "blank", "unknown", "word"] ∧
      Tiles .start tokens ⟨4, 1, 5⟩ ∧
      lexer.tokenize "a ?a" = .ok (tokens.filter fun t => !lexer.skipped.contains t.kind) := by
  intro lexer
  have hspans : lexer.unskipping.KeepsSpans :=
    keepsSpans_of_no_adjustments (by simp [lexer, wordsAndBlanks, unskipping])
  have hunknown : unknownKind ∉ lexer.skipped := by decide
  obtain ⟨-, htiles, -⟩ := tokenize_tiles lexer.unskipping "a ?a"
  obtain ⟨-, -, hfilter⟩ := tokenize_tiles lexer "a ?a"
  refine ⟨_, rfl, by decide, htiles hspans rfl _ rfl, ?_⟩
  exact hfilter fun _ => hunknown

end Descent
