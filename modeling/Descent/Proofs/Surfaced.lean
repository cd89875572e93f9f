import Descent.Proofs.Places
import Descent.Proofs.Skipped
import Descent.Proofs.Tiling

/-!
# Kinds that are handed out

A lexer passes over the tokens of skipped kinds that its forms read. The token that it makes of a
character which begins no other is not looked up among the skipped kinds, so it is handed out even
if its kind, `unknown`, is one of them. No other token of a skipped kind is ever handed out.

* `Lexer.strayOf_of_found`: what is found and is of a skipped kind is made of a stray character.
* `Lexer.TokenOf.skips_kind_iff`: when a token is of a skipped kind.
* `surfaces_skipped_iff`: the tokens that streams and `tokenize` give.
-/
namespace Descent

open Descent.Stream

namespace Lexer

variable {lexer : Lexer} {text : String}

/-- The token is made of a character of the text at which no form reads anything. -/
def StrayOf (lexer : Lexer) (text : String) (t : Token) : Prop :=
  lexer.unknown = .emit ∧ ∃ n ch, text.toList[n]? = some ch ∧
    readWith lexer.forms ((Cursor.ofString text).skip n) =
      .ok none ((Cursor.ofString text).skip n) ∧
    t = ⟨unknownKind, .text ch.toString,
      ⟨((Cursor.ofString text).skip n).position, ((Cursor.ofString text).skip (n + 1)).position⟩⟩

theorem StrayOf.kind_eq {t : Token} (h : lexer.StrayOf text t) : t.kind = unknownKind := by
  obtain ⟨-, n, ch, -, -, rfl⟩ := h
  rfl

/-- Where a stray character was read, no form reads anything. -/
theorem readWith_of_readHere_stray {c d : Cursor} {t : Token}
    (h : lexer.readHere c = .ok (.stray t) d) :
    readWith lexer.forms c = .ok none c ∧ lexer.readStray c = .ok (.stray t) d := by
  have hmoved := moved_readWith lexer.forms c
  unfold readHere at h
  split at h
  · cases h
  · split at h <;> rename_i hread <;> rw [hread] at hmoved
    · cases h
    · obtain rfl := hmoved
      exact ⟨hread, h⟩
    · cases h

theorem strayOf_of_readStray {n : Nat} {d : Cursor} {t : Token}
    (hforms : readWith lexer.forms ((Cursor.ofString text).skip n) =
      .ok none ((Cursor.ofString text).skip n))
    (h : lexer.readStray ((Cursor.ofString text).skip n) = .ok (.stray t) d) :
    lexer.StrayOf text t := by
  unfold readStray at h
  split at h
  · cases h
  · next ch rest hrest =>
    have hch : text.toList[n]? = some ch := by
      have hdrop : text.toList.drop n = ch :: rest := hrest
      rw [← List.head?_drop, hdrop, List.head?_cons]
    simp only at h
    split at h <;> cases h
    next hemit => exact ⟨hemit, n, ch, hch, hforms, by rw [Cursor.skip_add]⟩

/-- What is found and is of a skipped kind is made of a stray character. -/
theorem strayOf_of_found {k : Nat} {t : Token} (h : lexer.FoundAt text k t)
    (hkind : lexer.skips t.kind = true) : lexer.StrayOf text t := by
  unfold FoundAt found at h
  obtain ⟨c, hskips, hread, hkept⟩ := lexer.skips_read (lexer.place text k)
  -- Both the place and the skipped text behind it lie ahead of the start.
  obtain ⟨n, -, -, hc⟩ := (lexer.reaches_place text (Nat.zero_le k)).trans hskips.reaches
  rw [hread] at h
  cases hhere : lexer.readHere c with
  | error e d => rw [hhere] at h; cases h
  | ok l d =>
    rw [hhere] at h
    have ht : l.token? = some t := Except.ok.inj h
    rcases readHere_cases hhere with ⟨-, rfl, -⟩ | ⟨u, rfl, -⟩ | ⟨u, rfl, -⟩ <;> cases ht
    · rw [hkept t d hhere] at hkind
      cases hkind
    · obtain ⟨hforms, hstray⟩ := readWith_of_readHere_stray hhere
      rw [hc] at hforms hstray
      exact strayOf_of_readStray hforms hstray

/-- A token that the lexer comes by is of a skipped kind exactly if it is made of a stray character
and these are to be skipped. -/
theorem TokenOf.skips_kind_iff {t : Token} (h : lexer.TokenOf text t) :
    lexer.skips t.kind = true ↔ lexer.skips unknownKind = true ∧ lexer.StrayOf text t := by
  constructor
  · intro hkind
    obtain ⟨k, hk⟩ := h
    have hstray := strayOf_of_found hk hkind
    rw [← hstray.kind_eq]
    exact ⟨hkind, hstray⟩
  · intro h
    rw [h.2.kind_eq]
    exact h.1

end Lexer

theorem Stream.Reachable.tokenOf_of_peek {lexer : Lexer} {text : String} {s s' : Stream lexer}
    {t : Token} (h : s.Reachable text) (hp : peek s = .ok (some t) s') : lexer.TokenOf text t := by
  obtain ⟨k, hk⟩ := h.standsAt_place
  exact ⟨k, foundAt_of_peek hk hp⟩

/-- Of the tokens that a stream shows or hands out in any of its states, and of those that
`tokenize` gives, exactly these are of a skipped kind: the tokens made of characters that begin no
other, if their kind is among the skipped ones. So no token of a skipped kind is handed out by a
lexer that rejects such characters, or that does not skip their kind. -/
theorem surfaces_skipped_iff (lexer : Lexer) (text : String) :
    (∀ (s s' : Stream lexer) (t : Token), s.Reachable text →
      peek s = .ok (some t) s' ∨ next s = .ok (some t) s' →
      (lexer.skips t.kind = true ↔ lexer.skips unknownKind = true ∧ lexer.StrayOf text t)) ∧
    (∀ tokens, lexer.tokenize text = .ok tokens → ∀ t ∈ tokens,
      (lexer.skips t.kind = true ↔ lexer.skips unknownKind = true ∧ lexer.StrayOf text t)) := by
  constructor
  · intro s s' t hs h
    have hpeek : ∃ s₁, peek s = .ok (some t) s₁ := by
      rcases h with h | h
      · exact ⟨s', h⟩
      · exact Survey.peek_of_next_ok h
    obtain ⟨s₁, hp⟩ := hpeek
    exact (hs.tokenOf_of_peek hp).skips_kind_iff
  · intro tokens h t ht
    exact ((Lexer.tokenOf_iff_mem h).2 ht).skips_kind_iff

/-- Words of one letter; blanks are skipped, and so shall be whatever begins no token. -/
def wordsOnly : Lexer := { wordsAndBlanks with skipped := ["blank", "unknown"], unknown := .emit }

/-- Of a blank, a stray character and a word the blank alone is left out, and a look shows the
stray character first. -/
theorem surfaces_skipped_iff_stray :
    ∃ stray word s', wordsOnly.tokenize " ?a" = .ok [stray, word] ∧
      peek (.ofString " ?a" : Stream wordsOnly) = .ok (some stray) s' ∧
      wordsOnly.skips stray.kind = true ∧ wordsOnly.StrayOf " ?a" stray ∧
      ¬ wordsOnly.StrayOf " ?a" word := by
  obtain ⟨stray, word, s', htokens, hp, hskipped, hkept⟩ : ∃ stray word s',
      wordsOnly.tokenize " ?a" = .ok [stray, word] ∧
      peek (.ofString " ?a" : Stream wordsOnly) = .ok (some stray) s' ∧
      wordsOnly.skips stray.kind = true ∧ wordsOnly.skips word.kind = false :=
    ⟨_, _, _, rfl, rfl, by decide, by decide⟩
  obtain ⟨hshown, hgiven⟩ := surfaces_skipped_iff wordsOnly " ?a"
  obtain ⟨hunknown, hstray⟩ := (hshown _ s' stray .start (Or.inl hp)).1 hskipped
  refine ⟨stray, word, s', htokens, hp, hskipped, hstray, ?_⟩
  intro hword
  rw [(hgiven _ htokens word (by simp)).2 ⟨hunknown, hword⟩] at hkept
  cases hkept

/-- Not all that is skipped is left out: a look at a stray character shows a token of a skipped
kind, and `tokenize` gives it. -/
theorem skipped_kind_surfaces :
    ¬ ∀ (lexer : Lexer) (text : String) (s s' : Stream lexer) (t : Token), s.Reachable text →
        peek s = .ok (some t) s' → lexer.skips t.kind = false := by
  intro h
  obtain ⟨t, s', hp, hkind⟩ : ∃ t s', peek (.ofString "?" : Stream wordsOnly) = .ok (some t) s' ∧
      wordsOnly.skips t.kind = true := ⟨_, _, rfl, by decide⟩
  rw [h wordsOnly "?" _ s' t .start hp] at hkind
  cases hkind

end Descent
