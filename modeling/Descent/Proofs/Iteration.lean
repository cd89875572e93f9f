import Descent.Proofs.Findings

/-!
# What repetitions find

The loop rules of the logic. An invariant `I ts Q` says of the tokens ahead that the loop may
promise `Q` for the items that it still reads and the tokens behind them; one element turns the
promise into one for the items behind it. An element that fails ends the parse, and so does one that
reads nothing, so that either all errors are admitted (`Lax`) or the tokens ahead become fewer.

* `reads_elementsUntilEnd`, `reads_elementsUntil`, `reads_separatedElements`: the three loops.
* `readsWithin_untilEnd`, `readsWithin_untilMatch`, `readsWithin_delimited`: their segments.
-/
namespace Descent

open Descent.Stream

/-- All errors are admitted. -/
def Lax (E : Stop → Prop) : Prop := ∀ e, E e

variable {x : Tokenized} {E : Stop → Prop} {ts : List Lexeme} {el : Parse x.lexer Outcome}
  {M : Finding → List Lexeme → Prop} {F : Prop}

/-! ## Elements -/

theorem reads_required {R : Outcome → List Lexeme → Prop}
    (h : Reads E ts el fun o rest => (o.isMatch = false ∧ Lax E) ∨ (o.isMatch = true ∧ R o rest)) :
    Reads E ts (required el) R := by
  refine h.bind fun o rest ho => ?_
  rcases ho with ⟨hm, hE⟩ | ⟨hm, hR⟩
  · rw [hm]
    exact (reads_complaint o).bind fun e _ _ => reads_refuse (hE _)
  · rw [hm]
    exact reads_pure hR

/-- What an element promises: that the tokens become fewer, and the items that follow it. -/
def Promises (E : Stop → Prop) (I : List Lexeme → (List Value → List Lexeme → Prop) → Prop)
    (ts : List Lexeme) (Q : List Value → List Lexeme → Prop) (items : List Value)
    (rest : List Lexeme) : Prop :=
  (Lax E ∨ rest.length < ts.length) ∧
    ∃ Q', I rest Q' ∧ ∀ more last, Q' more last → Q (items ++ more) last

theorem reads_requiredStep
    (h : Runs E ts el (fun f rest => (Lax E ∨ rest.length < ts.length) ∧ M f rest) (Lax E)) :
    Reads E ts (requiredStep el) fun o rest =>
      ∃ f, o.Shows f ∧ (Lax E ∨ rest.length < ts.length) ∧ M f rest := by
  refine reads_position.bind fun start mid hmid => ?_
  subst hmid
  have hstep : Reads E mid (required el) fun o rest => ∃ f, o.Shows f ∧
      (rest.length < mid.length → o.progress ≠ 0) ∧
      (Lax E ∨ rest.length < mid.length) ∧ M f rest := by
    refine reads_required (Reads.mono h fun o rest ho => ?_)
    rcases ho with ⟨hm, -, hE⟩ | ⟨f, hf, hprogress, hlt, hM⟩
    · exact Or.inl ⟨hm, hE⟩
    · exact Or.inr ⟨hf.isMatch, f, hf, hprogress, hlt, hM⟩
  refine hstep.bind fun o rest ⟨f, hf, hprogress, hlt, hM⟩ => ?_
  split
  · next hzero =>
    rcases hlt with hE | hlt
    · exact reads_refuse (hE _)
    · exact absurd hzero (hprogress hlt)
  · exact reads_pure ⟨f, hf, hlt, hM⟩

theorem map_bare_toList {o : Outcome} {f : Finding} (h : o.Shows f) :
    o.data?.toList.map Value.bare = f.data.toList := by
  rw [← h.data]
  cases o.data? <;> rfl

/-! ## Loops -/

section

variable {I : List Lexeme → (List Value → List Lexeme → Prop) → Prop}
  {Q : List Value → List Lexeme → Prop} {fuel : Nat}

/-- No loop comes to its last step while it is given more steps than there are tokens. -/
theorem reads_endless {α : Type} {R : α → List Lexeme → Prop} (h : Lax E ∨ ts.length < 0) :
    Reads E ts (throw .endless : Parse x.lexer α) R :=
  h.elim (fun hE => reads_throw (hE _)) fun hlt => absurd hlt (Nat.not_lt_zero _)

theorem enough_of_lt {rest : List Lexeme} (h : Lax E ∨ ts.length < fuel + 1)
    (hlt : Lax E ∨ rest.length < ts.length) : Lax E ∨ rest.length < fuel := by
  rcases h with hE | h
  · exact Or.inl hE
  · exact hlt.imp_right fun hlt => by omega

/-- Elements up to the end of the text. -/
theorem reads_elementsUntilEnd (hend : ∀ Q, I [] Q → Q [] [])
    (hstep : ∀ ts Q, ts ≠ [] → I ts Q →
      Runs E ts el (fun f rest => Promises E I ts Q f.data.toList rest) (Lax E))
    (hfuel : Lax E ∨ ts.length < fuel) (hI : I ts Q) :
    Reads E ts (elementsUntilEnd el fuel) fun items rest => Q (items.map Value.bare) rest := by
  induction fuel generalizing ts Q with
  | zero => exact reads_endless hfuel
  | succ fuel ih =>
    refine reads_atEnd.bind fun done mid ⟨hmid, hdone⟩ => ?_
    subst hmid
    cases mid with
    | nil =>
      rw [hdone]
      exact reads_pure (hend Q hI)
    | cons l mid =>
      rw [hdone]
      refine (reads_requiredStep (hstep (l :: mid) Q (List.cons_ne_nil l mid) hI)).bind
        fun o rest ⟨f, hf, hlt, Q', hI', hQ⟩ => ?_
      refine (ih (enough_of_lt hfuel hlt) hI').bind fun items last hitems => reads_pure ?_
      rw [List.map_append, map_bare_toList hf]
      exact hQ _ _ hitems

/-- Elements up to the terminator or the end of the text. -/
theorem reads_elementsUntil {terminator : Parse x.lexer Outcome}
    (hstep : ∀ ts Q, I ts Q → Runs E ts terminator (fun _ rest => Q [] rest)
      ((ts = [] → Q [] []) ∧ (ts ≠ [] →
        Runs E ts el (fun f rest => Promises E I ts Q f.data.toList rest) (Lax E))))
    (hfuel : Lax E ∨ ts.length < fuel) (hI : I ts Q) :
    Reads E ts (elementsUntil terminator el fuel) fun items rest =>
      Q (items.map Value.bare) rest := by
  induction fuel generalizing ts Q with
  | zero => exact reads_endless hfuel
  | succ fuel ih =>
    refine (hstep ts Q hI).bind fun o mid ho => ?_
    rcases ho with ⟨hm, rfl, hend, hmore⟩ | ⟨f, hf, -, hQ⟩
    · simp only [hm, Bool.false_eq_true, if_false]
      refine reads_atEnd.bind fun done mid' ⟨hmid, hdone⟩ => ?_
      subst hmid
      cases mid' with
      | nil =>
        rw [hdone]
        exact reads_pure (hend rfl)
      | cons l mid =>
        rw [hdone]
        refine (reads_requiredStep (hmore nofun)).bind
          fun o rest ⟨f, hf, hlt, Q', hI', hQ⟩ => ?_
        refine (ih (enough_of_lt hfuel hlt) hI').bind fun items last hitems => reads_pure ?_
        rw [List.map_append, map_bare_toList hf]
        exact hQ _ _ hitems
    · rw [if_pos hf.isMatch]
      exact reads_pure hQ

/-- Elements with separators between them, and the closing delimiter behind them. -/
theorem reads_separatedElements {closing separator : Parse x.lexer Outcome}
    (hstep : ∀ ts Q, I ts Q → Runs E ts el (fun f mid =>
      Runs E mid separator (fun _ rest => Promises E I ts Q f.data.toList rest)
        (Runs E mid closing (fun _ rest => Q f.data.toList rest) F)) (Lax E))
    (hfuel : Lax E ∨ ts.length < fuel) (hI : I ts Q) :
    Reads E ts (separatedElements closing separator el fuel) fun r rest =>
      (r.2.isMatch = false ∧ F) ∨ (r.2.isMatch = true ∧ Q (r.1.map Value.bare) rest) := by
  induction fuel generalizing ts Q with
  | zero => exact reads_endless hfuel
  | succ fuel ih =>
    have hel : Reads E ts (required el) fun o mid => ∃ f, o.Shows f ∧
        Runs E mid separator (fun _ rest => Promises E I ts Q f.data.toList rest)
          (Runs E mid closing (fun _ rest => Q f.data.toList rest) F) := by
      refine reads_required (Reads.mono (hstep ts Q hI) fun o rest ho => ?_)
      rcases ho with ⟨hm, -, hE⟩ | ⟨f, hf, -, hM⟩
      · exact Or.inl ⟨hm, hE⟩
      · exact Or.inr ⟨hf.isMatch, f, hf, hM⟩
    refine hel.bind fun o mid ⟨f, hf, hsep⟩ => ?_
    refine hsep.bind fun sep more hs => ?_
    rcases hs with ⟨hm, rfl, hclose⟩ | ⟨_, hs, -, hlt, Q', hI', hQ⟩
    · simp only [hm, Bool.false_eq_true, if_false]
      refine hclose.bind fun closed rest hc => reads_pure ?_
      rcases hc with ⟨hc, -, hF⟩ | ⟨_, hc, -, hQ⟩
      · exact Or.inl ⟨hc, hF⟩
      · refine Or.inr ⟨hc.isMatch, ?_⟩
        rw [map_bare_toList hf]
        exact hQ
    · rw [if_pos hs.isMatch]
      refine (ih (enough_of_lt hfuel hlt) hI').bind fun r last hr => reads_pure ?_
      refine hr.imp_right fun ⟨hc, hitems⟩ => ⟨hc, ?_⟩
      rw [List.map_append, map_bare_toList hf]
      exact hQ _ _ hitems

end

/-! ## Segments -/

section

variable [Lenient E] {grammar : Grammar} {n : Nat} {s element : Segment}
  {N : Finding → List Lexeme → Prop} {I : List Lexeme → (List Value → List Lexeme → Prop) → Prop}
  {Q : List Value → List Lexeme → Prop}

theorem readsWithin_untilEnd (hs : s.shape = .untilEnd element)
    (hn : s.options.nesting = .inherit) (hend : ∀ Q, I [] Q → Q [] [])
    (hstep : ∀ ts Q, ts ≠ [] → I ts Q → ReadsWithin x grammar E n element ts
      (fun f rest => Promises E I ts Q f.data.toList rest) (Lax E))
    (hI : I ts Q) (hM : ∀ items rest, Q items rest →
      N (({ data := some (.list items) } : Finding).keyed s.options.key) rest) :
    ReadsWithin x grammar E n s ts N F := by
  refine (readsWithin_of_body hn (M := fun f rest => ∃ items,
    f = { data := some (.list items) } ∧ Q items rest) (fun m hm => ?_) ?_).of_le (Nat.le_succ n)
  · rw [hs]
    refine reads_steps.bind fun fuel mid ⟨hmid, hfuel⟩ => ?_
    subst hmid
    refine (reads_elementsUntilEnd hend (fun ts Q hts hI => hstep ts Q hts hI m hm)
      (Or.inr hfuel) hI).bind fun items rest hQ => ?_
    exact finds_of_finding (shows_list items) ⟨_, rfl, hQ⟩
  · rintro f rest ⟨items, rfl, hQ⟩
    exact hM items rest hQ

theorem readsWithin_untilMatch {terminator : Segment}
    (hs : s.shape = .untilMatch terminator element) (hn : s.options.nesting = .inherit)
    (hstep : ∀ ts Q, I ts Q → ReadsWithin x grammar E n terminator ts (fun _ rest => Q [] rest)
      ((ts = [] → Q [] []) ∧ (ts ≠ [] → ReadsWithin x grammar E n element ts
        (fun f rest => Promises E I ts Q f.data.toList rest) (Lax E))))
    (hI : I ts Q) (hM : ∀ items rest, Q items rest →
      N (({ data := some (.list items) } : Finding).keyed s.options.key) rest) :
    ReadsWithin x grammar E n s ts N F := by
  refine (readsWithin_of_body hn (M := fun f rest => ∃ items,
    f = { data := some (.list items) } ∧ Q items rest) (fun m hm => ?_) ?_).of_le (Nat.le_succ n)
  · rw [hs]
    refine reads_steps.bind fun fuel mid ⟨hmid, hfuel⟩ => ?_
    subst hmid
    refine (reads_elementsUntil (fun ts Q hI => (hstep ts Q hI m hm).mono (fun _ _ hQ => hQ)
      fun ⟨hend, hmore⟩ => ⟨hend, fun hts => hmore hts m hm⟩)
      (Or.inr hfuel) hI).bind fun items rest hQ => ?_
    exact finds_of_finding (shows_list items) ⟨_, rfl, hQ⟩
  · rintro f rest ⟨items, rfl, hQ⟩
    exact hM items rest hQ

theorem readsWithin_delimited {opening closing separator : Segment}
    (hs : s.shape = .delimited opening closing separator element)
    (hn : s.options.nesting = .inherit)
    (hopen : ReadsWithin x grammar E n opening ts (fun _ mid =>
      ReadsWithin x grammar E n closing mid (fun _ rest =>
        N (({ data := some (.list []) } : Finding).keyed s.options.key) rest)
        (∃ Q, I mid Q ∧ ∀ items rest, Q items rest →
          N (({ data := some (.list items) } : Finding).keyed s.options.key) rest)) F)
    (hstep : ∀ ts Q, I ts Q → ReadsWithin x grammar E n element ts (fun f mid =>
      ReadsWithin x grammar E n separator mid
        (fun _ rest => Promises E I ts Q f.data.toList rest)
        (ReadsWithin x grammar E n closing mid (fun _ rest => Q f.data.toList rest) F)) (Lax E)) :
    ReadsWithin x grammar E n s ts N F := by
  refine (readsWithin_of_body hn (M := fun f rest => ∃ items,
    f = { data := some (.list items) } ∧
      N (({ data := some (.list items) } : Finding).keyed s.options.key) rest)
    (fun m hm => ?_) ?_).of_le (Nat.le_succ n)
  · rw [hs]
    refine (hopen m hm).bind fun opened mid ho => ?_
    rcases ho with ⟨ho, -, hF⟩ | ⟨_, ho, -, hclose⟩
    · simp only [ho]
      exact finds_of_failure ho hF
    simp only [ho.isMatch]
    refine (hclose m hm).bind fun closed mid' hc => ?_
    rcases hc with ⟨hc, rfl, Q, hI, hQ⟩ | ⟨_, hc, -, hN⟩
    · simp only [hc]
      refine reads_steps.bind fun fuel mid ⟨hmid, hfuel⟩ => ?_
      subst hmid
      refine (reads_separatedElements (F := F) (fun ts Q hI => (hstep ts Q hI m hm).mono
        (fun f _ hsep => (hsep m hm).mono (fun _ _ hp => hp) fun hclose => hclose m hm)
        id) (Or.inr hfuel) hI).bind fun r rest hr => ?_
      rcases hr with ⟨hc, hF⟩ | ⟨hc, hitems⟩
      · simp only [hc]
        exact finds_of_failure hc hF
      · simp only [hc]
        exact finds_of_finding (shows_list r.1) ⟨_, rfl, hQ _ _ hitems⟩
    · simp only [hc.isMatch]
      exact finds_of_finding (shows_list []) ⟨_, rfl, hN⟩
  · rintro f rest ⟨items, rfl, hN⟩
    exact hN

end

end Descent
