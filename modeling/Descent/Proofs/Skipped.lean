import Descent.Proofs.Lookahead

/-!
# Skipped text

The token that comes next need not begin where a stream stands: tokens of skipped kinds may lie
before it. `Skips` are the readings of such tokens, and `Shows` says what stands behind them. The
position that a stream gives is that of the next token, so it lies behind skipped tokens only; it is
the token's own account of where it starts, which an adjustment may change. What is counted from
the start of the text is of no use on a stream that was returned to a checkpoint of a stream over
another text (`Stream.strayed`).

* `Lexer.skips_read`: what the lexer passes over before it reads a token.
* `Lexer.Shows.eq_position`: if no adjustment moves tokens, the next token starts where it was read.
* `Stream.Reachable.skips_position`: the position that a stream gives, from its offset on.
-/
namespace Descent

/-- The adjustment leaves a token where it is. -/
def Adjustment.KeepsSpan : Adjustment → Prop
  | .custom change => ∀ t, (change t).span = t.span
  | _ => True

theorem Adjustment.KeepsSpan.span_eq {a : Adjustment} (h : a.KeepsSpan) {t t' : Token}
    (ht : a.apply t = .ok t') : t'.span = t.span := by
  cases a with
  | number =>
    simp only [apply] at ht
    split at ht
    · cases ht; rfl
    · split at ht <;> cases ht; rfl
  | keywords kind words => simp only [apply] at ht; split at ht <;> cases ht <;> rfl
  | dropSigil sigil => simp only [apply] at ht; split at ht <;> cases ht <;> rfl
  | custom change => cases ht; exact h t

theorem Adjustment.span_of_applyAll {adjustments : List Adjustment}
    (h : ∀ a ∈ adjustments, a.KeepsSpan) {t t' : Token} (ht : applyAll adjustments t = .ok t') :
    t'.span = t.span := by
  induction adjustments generalizing t with
  | nil => cases ht; rfl
  | cons a rest ih =>
    rw [List.forall_mem_cons] at h
    rw [applyAll, List.foldlM_cons] at ht
    cases ha : a.apply t with
    | error e => rw [ha] at ht; cases ht
    | ok u =>
      rw [ha] at ht
      exact (ih h.2 ht).trans (h.1.span_eq ha)

/-- Turns the span of a token round. -/
def Adjustment.turned : Adjustment :=
  .custom fun t => { t with span := ⟨t.span.stop, t.span.start⟩ }

/-- Puts a token at the start of the text. -/
def Adjustment.atStart : Adjustment :=
  .custom fun t => { t with span := ⟨.start, .start⟩ }

namespace Lexer

variable {lexer : Lexer}

/-- No adjustment of the lexer moves tokens. -/
def KeepsSpans (lexer : Lexer) : Prop :=
  ∀ form ∈ lexer.forms, ∀ a ∈ form.adjustments, a.KeepsSpan

theorem keepsSpans_of_no_adjustments (h : ∀ form ∈ lexer.forms, form.adjustments = []) :
    lexer.KeepsSpans := by
  intro form hform a ha
  rw [h form hform] at ha
  cases ha

/-- Only tokens of skipped kinds lie between the two cursors. -/
inductive Skips (lexer : Lexer) : Cursor → Cursor → Prop
  | here (c : Cursor) : Skips lexer c c
  | skip {c d e : Cursor} {t : Token} (hread : readWith lexer.forms c = .ok (some t) d)
    (hkind : lexer.skips t.kind = true) (h : Skips lexer d e) : Skips lexer c e

theorem Skips.reaches {c d : Cursor} (h : lexer.Skips c d) : Cursor.Reaches 0 c d := by
  induction h with
  | here c => exact Cursor.reaches_refl c
  | @skip c d e t hread _ _ ih =>
    have hm : Cursor.Moved c (readWith lexer.forms c) := moved_readWith lexer.forms c
    rw [hread] at hm
    exact (Cursor.Reaches.trans hm ih).mono (Nat.zero_le _)

/-- At this cursor stands the end of the text or a token that is not skipped, and this is its
position. -/
def Shows (lexer : Lexer) (c : Cursor) (p : Position) : Prop :=
  (c.atEnd = true ∧ p = c.position) ∨
    (∃ t d, readWith lexer.forms c = .ok (some t) d ∧ lexer.skips t.kind = false ∧ p = t.start) ∨
    ∃ t d, lexer.readStray c = .ok (.stray t) d ∧ p = t.start

theorem readStray_cases {c d : Cursor} {l : Lexed} (h : lexer.readStray c = .ok l d) :
    c.atEnd = true ∧ l = .finished ∨
      ∃ t, l = .stray t ∧ t.kind = unknownKind ∧ t.span = ⟨c.position, d.position⟩ := by
  unfold readStray at h
  split at h
  · next hrest => cases h; exact Or.inl ⟨by simp [Cursor.atEnd, hrest], rfl⟩
  · simp only at h
    split at h <;> cases h
    exact Or.inr ⟨_, rfl, rfl, rfl⟩

theorem moved_readStray {c d : Cursor} {t : Token} (h : lexer.readStray c = .ok (.stray t) d) :
    Cursor.Reaches 1 c d := by
  unfold readStray at h
  split at h
  · cases h
  · next hrest =>
    simp only at h
    split at h <;> cases h
    exact Cursor.reaches_skip (by simp [hrest])

/-- Reads what stands at the cursor, be it of a skipped kind or not. -/
def readHere (lexer : Lexer) : Reading Lexed := fun c =>
  if c.atEnd then .ok .finished c
  else
    match readWith lexer.forms c with
    | .ok (some t) d => .ok (.token t) d
    | .ok none d => lexer.readStray d
    | .error e d => .error e d

/-- Only skipped tokens lie before what is read next. -/
theorem skips_readWithin {fuel : Nat} {c : Cursor} (hfuel : c.rest.length ≤ fuel) :
    ∃ e, lexer.Skips c e ∧ lexer.readWithin fuel c = lexer.readHere e ∧
      ∀ t d, lexer.readHere e = .ok (.token t) d → lexer.skips t.kind = false := by
  induction fuel generalizing c with
  | zero =>
    have hend : c.atEnd = true := by simpa [Cursor.atEnd] using hfuel
    have hhere : lexer.readHere c = .ok .finished c := by rw [readHere, if_pos hend]
    exact ⟨c, .here c, hhere.symm, by simp [hhere]⟩
  | succ fuel ih =>
    have hm := moved_readWith lexer.forms c
    simp only [readWithin, bind_apply, get_apply]
    cases hend : c.atEnd with
    | true =>
      have hhere : lexer.readHere c = .ok .finished c := by rw [readHere, if_pos hend]
      exact ⟨c, .here c, hhere.symm, by simp [hhere]⟩
    | false =>
      simp only [Bool.false_eq_true, if_false, bind_apply]
      cases hread : readWith lexer.forms c with
      | error e d =>
        have hhere : lexer.readHere c = .error e d := by simp [readHere, hend, hread]
        exact ⟨c, .here c, hhere.symm, by simp [hhere]⟩
      | ok found d =>
        rw [hread] at hm
        cases found with
        | none =>
          obtain rfl : d = c := hm
          have hhere : lexer.readHere d = lexer.readStray d := by simp [readHere, hend, hread]
          refine ⟨d, .here d, hhere.symm, ?_⟩
          intro t d' ht
          rcases readStray_cases (hhere.symm.trans ht) with ⟨-, hl⟩ | ⟨u, hl, -⟩ <;> cases hl
        | some t =>
          have hhere : lexer.readHere c = .ok (.token t) d := by simp [readHere, hend, hread]
          simp only
          split
          · next hkind =>
            have := Cursor.Reaches.length_le (show Cursor.Reaches 1 c d from hm)
            obtain ⟨e, hskips, hrest⟩ := ih (show d.rest.length ≤ fuel by omega)
            exact ⟨e, .skip hread hkind hskips, hrest⟩
          · next hkind =>
            refine ⟨c, .here c, hhere.symm, ?_⟩
            intro u d' hu
            cases hhere.symm.trans hu
            simpa using hkind

theorem skips_read (lexer : Lexer) (c : Cursor) :
    ∃ e, lexer.Skips c e ∧ lexer.read c = lexer.readHere e ∧
      ∀ t d, lexer.readHere e = .ok (.token t) d → lexer.skips t.kind = false :=
  skips_readWithin (Nat.le_refl _)

/-- What was read here, or why nothing was. -/
theorem readHere_cases {c d : Cursor} {l : Lexed} (h : lexer.readHere c = .ok l d) :
    (c.atEnd = true ∧ l = .finished ∧ d = c) ∨
      (∃ t, l = .token t ∧ readWith lexer.forms c = .ok (some t) d) ∨
      ∃ t, l = .stray t ∧ lexer.readStray c = .ok (.stray t) d := by
  unfold readHere at h
  split at h
  · next hend => cases h; exact Or.inl ⟨hend, rfl, rfl⟩
  · next hend =>
    have hm := moved_readWith lexer.forms c
    split at h <;> rename_i hread <;> rw [hread] at hm
    · cases h; exact Or.inr (Or.inl ⟨_, rfl, hread⟩)
    · obtain rfl := hm
      rcases readStray_cases h with ⟨hend', -⟩ | ⟨t, rfl, -⟩
      · exact absurd hend' hend
      · exact Or.inr (Or.inr ⟨t, rfl, h⟩)
    · cases h

/-- Before a token, or the end of the text, the lexer passes over skipped tokens only. -/
theorem shows_of_read {c d : Cursor} {l : Lexed} (h : lexer.read c = .ok l d) :
    ∃ e, lexer.Skips c e ∧ lexer.Shows e ((l.token?.map Token.start).getD d.position) := by
  obtain ⟨e, hskips, hread, hkind⟩ := lexer.skips_read c
  rw [h] at hread
  refine ⟨e, hskips, ?_⟩
  rcases readHere_cases hread.symm with ⟨hend, rfl, rfl⟩ | ⟨t, rfl, hform⟩ | ⟨t, rfl, hstray⟩
  · exact Or.inl ⟨hend, rfl⟩
  · exact Or.inr (Or.inl ⟨t, d, hform, hkind t d hread.symm, rfl⟩)
  · exact Or.inr (Or.inr ⟨t, d, hstray, rfl⟩)

theorem span_of_formReadWith {form : TokenForm} (hform : ∀ a ∈ form.adjustments, a.KeepsSpan)
    {recognizers : List Recognizer} {c d : Cursor} {t : Token}
    (h : form.readWith recognizers c = .ok (some t) d) : t.span = ⟨c.position, d.position⟩ := by
  induction recognizers with
  | nil => cases h
  | cons r rest ih =>
    rw [TokenForm.readWith_cons] at h
    have hm := r.moved_read c
    cases hr : r.read c with
    | error e d' => rw [hr] at h; cases h
    | ok found d' =>
      rw [hr] at h hm
      cases found with
      | none =>
        obtain rfl : d' = c := hm
        exact ih h
      | some read =>
        simp only at h
        split at h <;> cases h
        next ht => exact Adjustment.span_of_applyAll hform ht

/-- A token that a form read covers what was read for it. -/
theorem span_of_readWith {forms : List TokenForm}
    (hforms : ∀ form ∈ forms, ∀ a ∈ form.adjustments, a.KeepsSpan) {c d : Cursor} {t : Token}
    (h : readWith forms c = .ok (some t) d) : t.span = ⟨c.position, d.position⟩ := by
  induction forms with
  | nil => cases h
  | cons form rest ih =>
    rw [List.forall_mem_cons] at hforms
    simp only [readWith, bind_apply] at h
    have hm : Cursor.Moved c (form.read c) := form.moved_readWith _ c
    cases hr : form.read c with
    | error e d' => rw [hr] at h; cases h
    | ok found d' =>
      rw [hr] at h hm
      cases found with
      | none =>
        obtain rfl : d' = c := hm
        exact ih hforms.2 h
      | some u =>
        cases h
        exact span_of_formReadWith hforms.1 hr

/-- A token covers what was read for it, behind the skipped text. -/
theorem span_of_read (hkeeps : lexer.KeepsSpans) {c d : Cursor} {l : Lexed} {t : Token}
    (h : lexer.read c = .ok l d) (ht : l.token? = some t) :
    ∃ e, Cursor.Reaches 0 c e ∧ Cursor.Reaches 1 e d ∧ t.span = ⟨e.position, d.position⟩ := by
  obtain ⟨e, hskips, hread, -⟩ := lexer.skips_read c
  rw [h] at hread
  refine ⟨e, hskips.reaches, ?_⟩
  rcases readHere_cases hread.symm with ⟨-, rfl, -⟩ | ⟨u, rfl, hform⟩ | ⟨u, rfl, hstray⟩ <;>
    cases ht
  · have hm : Cursor.Moved e (readWith lexer.forms e) := moved_readWith lexer.forms e
    rw [hform] at hm
    exact ⟨hm, span_of_readWith hkeeps hform⟩
  · rcases readStray_cases hstray with ⟨-, hl⟩ | ⟨u, hl, -, hspan⟩ <;> cases hl
    exact ⟨moved_readStray hstray, hspan⟩

/-- Tokens start where they are read. -/
theorem Shows.eq_position (hkeeps : lexer.KeepsSpans) {c : Cursor} {p : Position}
    (h : lexer.Shows c p) : p = c.position := by
  rcases h with ⟨-, rfl⟩ | ⟨t, d, hread, -, rfl⟩ | ⟨t, d, hread, rfl⟩
  · rfl
  · exact congrArg Span.start (span_of_readWith hkeeps hread)
  · rcases readStray_cases hread with ⟨-, hl⟩ | ⟨u, hl, -, hspan⟩ <;> cases hl
    exact congrArg Span.start hspan

end Lexer

namespace Stream

variable {lexer : Lexer} {text : String} {s : Stream lexer}

/-- A stream stands as far in the text as its offset says. -/
theorem Reachable.standsAt_offset (h : s.Reachable text) :
    s.offset ≤ text.toList.length ∧ s.StandsAt ((Cursor.ofString text).skip s.offset) := by
  obtain ⟨k, hk⟩ := h.standsAt_place
  obtain ⟨n, -, hn, hplace⟩ := lexer.reaches_place text (Nat.zero_le k)
  have hoffset : s.offset = n := by
    have := congrArg (·.position.offset) hk.bookmark_eq
    rw [hplace] at this
    exact this.trans ((Cursor.offset_skip hn).trans (Nat.zero_add n))
  rw [hoffset]
  exact ⟨hn, hplace ▸ hk⟩

/-- A stream that a look does not move gives the position of what comes next. -/
theorem StandsAt.skips_position {c : Cursor} (h : s.StandsAt c) {p : Position}
    (hp : Stream.position s = .ok p s) : ∃ e, lexer.Skips c e ∧ lexer.Shows e p := by
  rw [position_eq] at hp
  rcases peek_cases h with ⟨t, s', hfound, hpeek, -⟩ | ⟨hfound, hpeek⟩ | ⟨e, -, hpeek⟩ <;>
    rw [hpeek] at hp
  · injection hp with hstart
    unfold Lexer.found at hfound
    cases hread : lexer.read c with
    | error e d => rw [hread] at hfound; cases hfound
    | ok l d =>
      rw [hread] at hfound
      have hl : l.token? = some t := Except.ok.inj hfound
      have hskips := Lexer.shows_of_read hread
      rwa [hl, Option.map_some, Option.getD_some, hstart] at hskips
  · -- The stream has already passed over what was left, so it stands where it did.
    injection hp with hend hs
    have hbuffered : s.buffered = none := congrArg Stream.buffered hs.symm
    have hc : s.cursor = c := by unfold StandsAt at h; rwa [hbuffered] at h
    have hpass : lexer.pass c = s.cursor := congrArg Stream.cursor hs
    refine ⟨c, .here c, Or.inl ⟨?_, ?_⟩⟩
    · rw [← hc, ← hpass]
      exact lexer.atEnd_pass hfound
    · rw [← hend, hs, hc]
  · cases hp

/-- From the offset of such a stream on, only skipped text lies before the position. -/
theorem Reachable.skips_position (h : s.Reachable text) {p : Position}
    (hp : Stream.position s = .ok p s) :
    ∃ n, s.offset ≤ n ∧ n ≤ text.toList.length ∧
      lexer.Skips ((Cursor.ofString text).skip s.offset) ((Cursor.ofString text).skip n) ∧
      lexer.Shows ((Cursor.ofString text).skip n) p := by
  obtain ⟨hoffset, hs⟩ := h.standsAt_offset
  obtain ⟨e, hskips, hshows⟩ := hs.skips_position hp
  obtain ⟨m, -, hm, rfl⟩ := hskips.reaches
  have hlength : ((Cursor.ofString text).skip s.offset).rest.length =
      text.toList.length - s.offset := List.length_drop
  rw [hlength] at hm
  rw [Cursor.skip_add] at hskips hshows
  exact ⟨s.offset + m, by omega, by omega, hskips, hshows⟩

/-! ## Streams astray -/

/-- A stream over a text that is returned to where a stream over another text stands behind its
first token. It is as far in the text by bytes, but goes on to count from what lies before there in
the other text. -/
def strayed (lexer : Lexer) (other text : String) : Stream lexer :=
  (ofString text).returnTo (stateOf (next (ofString other : Stream lexer))).checkpoint

end Stream

/-- Words of one letter or two, one of which takes two bytes, and blanks that are skipped. -/
def mixedWords : Lexer where
  forms := [⟨"blank", [.literals [" "]], []⟩, ⟨"word", [.literals ["é", "aa", "b"]], []⟩]
  skipped := ["blank"]

theorem keepsSpans_mixedWords : mixedWords.KeepsSpans :=
  Lexer.keepsSpans_of_no_adjustments (by simp [mixedWords])

end Descent
