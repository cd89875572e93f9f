import Descent.Proofs.Lockstep

/-!
# Segments side by side

What the shapes do on two texts with the same tokens, given that the segments inside of them run in
lockstep.

* `lockstep_tokenBody`: a token is accepted for what it says.
* `Ran.further`, `lockstep_choiceBody`: the failure that came furthest is the same on both texts.
* `lockstep_gather`, `lockstep_ruleBody`: rules are put together alike.
-/
namespace Descent

open Descent.Stream

variable {x y : Tokenized}

/-! ## Tokens -/

theorem Token.is_eq_of_content {t u : Token} (h : t.content = u.content) (kind text : String) :
    t.is kind text = u.is kind text := by
  injection h with hk hv
  rw [Token.is, Token.is, hk, hv]

theorem Token.shown_eq_of_content {t u : Token} (h : t.content = u.content) :
    t.shown = u.shown := by
  injection h with hk hv
  rw [Token.shown, Token.shown, hk, hv]

theorem butFound_eq_of_content {a b : Option Token}
    (h : a.map Token.content = b.map Token.content) : butFound a = butFound b := by
  rcases cases_of_map_eq h with ⟨rfl, rfl⟩ | ⟨t, u, rfl, rfl, htu⟩
  · rfl
  · rw [butFound, butFound, Token.shown_eq_of_content htu]

theorem unplaced_leafNode {t u : Token} (h : t.content = u.content) :
    (leafNode t).unplaced = (leafNode u).unplaced := by
  injection h with hk hv
  simp only [leafNode, Value.unplaced_node, Node.unplaced_eq, hk, hv]
  rfl

section

variable (hxy : x.Alike y) {k : Nat} (hk : x.Looked k)
include hxy hk

/-- A token is accepted or not for what it says. -/
theorem lockstep_tokenBody {accepts : Token → Bool} {outcome : Token → Outcome} (expected : String)
    (haccepts : ∀ t u : Token, t.content = u.content → accepts t = accepts u)
    (hmatch : ∀ t, (outcome t).isMatch = true)
    (houtcome : ∀ t u : Token, t.content = u.content →
      (outcome t).unplaced = (outcome u).unplaced) :
    Lockstep x y k (tokenBody accepts outcome expected) (tokenBody accepts outcome expected)
      (Done x y k) := by
  have hseen := x.seen_of_looked hk
  refine (readAlike_position hxy k).ofPull.bind ?_
  rintro _ p q - rfl
  rw [hseen]
  refine (readAlike_peek hxy k).ofPull.bind ?_
  rintro _ a b - ⟨rfl, hab, -⟩
  rw [hseen]
  have hfound := butFound_eq_of_content hab
  rcases cases_of_map_eq hab with ⟨rfl, rfl⟩ | ⟨t, u, rfl, rfl, htu⟩
  · exact lockstep_pure (.noticed rfl rfl rfl (Nat.le_refl k) hk rfl rfl)
  · simp only [haccepts t u htu, hfound]
    split
    · refine (readAlike_next hxy k).ofPull.bind ?_
      rintro _ _ _ - ⟨rfl, -⟩
      refine lockstep_pure (.matched (hmatch t) (hmatch u) (houtcome t u htu) ?_)
      have := hk.1
      omega
    · exact lockstep_pure (.noticed rfl rfl rfl (Nat.le_refl k) hk rfl rfl)

theorem lockstep_possiblyBody (kind expected : String) :
    Lockstep x y k (possiblyBody kind expected) (possiblyBody kind expected) (Done x y k) := by
  have hseen := x.seen_of_looked hk
  refine (readAlike_peek hxy k).ofPull.bind ?_
  rintro _ a b - ⟨rfl, hab, -⟩
  rw [hseen]
  have hany : a.any (·.is kind expected) = b.any (·.is kind expected) := by
    rcases cases_of_map_eq hab with ⟨rfl, rfl⟩ | ⟨t, u, rfl, rfl, htu⟩
    · rfl
    · exact Token.is_eq_of_content htu kind expected
  rw [hany]
  split
  · refine (readAlike_next hxy k).ofPull.bind ?_
    rintro _ _ _ - ⟨rfl, -⟩
    refine lockstep_pure (.matched rfl rfl rfl ?_)
    have := hk.1
    omega
  · exact lockstep_pure (.matched rfl rfl rfl (Nat.le_refl k))

end

/-! ## Choices and sequences -/

/-- The runs of all places go in lockstep. -/
def Paired (x y : Tokenized) (p : Parse x.lexer Outcome) (q : Parse y.lexer Outcome) : Prop :=
  ∀ k, Lockstep x y k p q (Ran x y k)

section

variable {k : Nat}

/-- Of two failures from the same place the same one is kept on both texts. -/
theorem Ran.further {b b' o o' : Outcome} (hxy : x.Alike y) (hb : Ran x y k k b b')
    (hbm : b.isMatch = false) (ho : Ran x y k k o o') (hom : o.isMatch = false) :
    Ran x y k k (further (some b) o) (further (some b') o') := by
  cases hb with
  | matched hm => rw [hbm] at hm; cases hm
  | failed _ hbm' balike back r kr hr breached breached' bprogress bprogress' =>
    cases ho with
    | matched hm => rw [hom] at hm; cases hm
    | failed _ hom' oalike _ q kq hq oreached oreached' oprogress oprogress' =>
      have hlt : b.progress < o.progress ↔ r < q := by
        have hx := x.offset_le kr
        have := x.offset_lt_iff hq.1 hr
        rw [bprogress, oprogress]
        omega
      have hlt' : b'.progress < o'.progress ↔ r < q := by
        have hy := y.offset_le kr
        have := y.offset_lt_iff (hxy.count_eq ▸ hq.1) (hxy.looked_iff.1 hr)
        rw [bprogress', oprogress']
        omega
      simp only [Descent.further, hlt, hlt']
      split
      · exact .failed hom hom' oalike back q kq hq oreached oreached' oprogress oprogress'
      · exact .failed hbm hbm' balike back r kr hr breached breached' bprogress bprogress'

end

/-- The best failure so far, if there is one, is the same on both texts. -/
def BestAlike (x y : Tokenized) (k : Nat) : Option Outcome → Option Outcome → Prop
  | none, none => True
  | some b, some b' => Ran x y k k b b' ∧ b.isMatch = false
  | _, _ => False

section

variable {run : Runner x.lexer} {run' : Runner y.lexer} (hxy : x.Alike y) {k : Nat}
  (hk : x.Looked k)
include hk

theorem lockstep_optionalBody {s : Segment} (hs : Paired x y (run s) (run' s)) :
    Lockstep x y k (optionalBody run s) (optionalBody run' s) (Done x y k) := by
  refine (hs k).bind fun j o o' hj h => ?_
  rw [h.isMatch_eq]
  split
  · exact lockstep_pure (h.done hk.1 (Nat.le_refl k))
  · exact lockstep_pure (.matched rfl rfl rfl (h.start_le hk.1))

theorem lockstep_betweenBody {opening content closing : Segment}
    (ho : Paired x y (run opening) (run' opening)) (hi : Paired x y (run content) (run' content))
    (hc : Paired x y (run closing) (run' closing)) :
    Lockstep x y k (betweenBody run opening content closing)
      (betweenBody run' opening content closing) (Done x y k) := by
  refine (ho k).bind fun j₁ o₁ o₁' hj₁ h₁ => ?_
  have hkj₁ : k ≤ j₁ := h₁.start_le hk.1
  rw [h₁.isMatch_eq]
  split
  · exact lockstep_pure (h₁.done hk.1 (Nat.le_refl k))
  · refine (hi j₁).bind fun j₂ o₂ o₂' hj₂ h₂ => ?_
    have hkj₂ : k ≤ j₂ := Nat.le_trans hkj₁ (h₂.start_le hj₁)
    rw [h₂.isMatch_eq]
    split
    · exact lockstep_pure (h₂.done hj₁ hkj₁)
    · refine (hc j₂).bind fun j₃ o₃ o₃' hj₃ h₃ => ?_
      rw [h₃.isMatch_eq]
      split
      · exact lockstep_pure (h₃.done hj₂ hkj₂)
      · refine lockstep_pure (.matched (by simp) (by simp) ?_ ?_)
        · rw [Outcome.unplaced_ofData?, Outcome.unplaced_ofData?, Outcome.alike_data? h₂.alike]
        · exact Nat.le_trans hkj₂ (h₃.start_le hj₂)

include hxy

theorem lockstep_choiceBody (alternatives : List Segment) {best best' : Option Outcome}
    (hbest : BestAlike x y k best best') (hrun : ∀ s ∈ alternatives, Paired x y (run s) (run' s)) :
    Lockstep x y k (choiceBody run best alternatives) (choiceBody run' best' alternatives)
      (Done x y k) := by
  have hseen := x.seen_of_looked hk
  induction alternatives generalizing best best' with
  | nil =>
    cases best with
    | none =>
      cases best' with
      | some b' => exact hbest.elim
      | none =>
        refine (readAlike_position hxy k).ofPull.bind ?_
        rintro _ p q - rfl
        rw [hseen]
        exact lockstep_pure (.noticed rfl rfl rfl (Nat.le_refl k) hk rfl rfl)
    | some b =>
      cases best' with
      | none => exact hbest.elim
      | some b' => exact lockstep_pure (hbest.1.done hk.1 (Nat.le_refl k))
  | cons s rest ih =>
    refine (hrun s List.mem_cons_self k).bind fun j o o' hj h => ?_
    rw [h.isMatch_eq]
    split
    · exact lockstep_pure (h.done hk.1 (Nat.le_refl k))
    · next hm =>
      have hm : o.isMatch = false := by simpa using hm
      obtain rfl : j = k := by rw [h.back hm, hseen]
      refine ih ?_ fun s' hs' => hrun s' (List.mem_cons_of_mem s hs')
      cases best with
      | none =>
        cases best' with
        | some b' => exact hbest.elim
        | none => exact ⟨h, hm⟩
      | some b =>
        cases best' with
        | none => exact hbest.elim
        | some b' =>
          refine ⟨hbest.1.further hxy hbest.2 h hm, isMatch_further (fun _ hb => ?_) hm⟩
          exact Option.some.inj hb ▸ hbest.2

end

/-! ## Rules -/

/-- A gathering of outcomes gives drafts that say the same, or a failure. -/
def GatherAlike (x y : Tokenized) (k j : Nat) :
    Except Outcome Draft → Except Outcome Draft → Prop
  | .ok d, .ok d' => d.unplaced = d'.unplaced ∧ k ≤ j
  | .error o, .error o' => o.isMatch = false ∧ Done x y k j o o'
  | _, _ => False

section

variable {run : Runner x.lexer} {run' : Runner y.lexer}

theorem lockstep_ofExcept {k : Nat} {r r' : Except ParseError Draft}
    (h : Draft.resultUnplaced r = Draft.resultUnplaced r') :
    Lockstep x y k (Parse.ofExcept r) (Parse.ofExcept r') fun j d d' =>
      j = k ∧ d.unplaced = d'.unplaced := by
  cases r with
  | ok d =>
    cases r' with
    | ok d' => exact lockstep_pure ⟨rfl, Except.ok.inj h⟩
    | error e' => cases h
  | error e =>
    cases r' with
    | ok d' => cases h
    | error e' => exact lockstep_refuse (Except.error.inj h)

theorem lockstep_gather (policy : Nesting) {segments : List Segment}
    (hrun : ∀ s ∈ segments, Paired x y (run s) (run' s)) {i k : Nat} (hi : i ≤ x.count + 1)
    (hik : k ≤ i) {d d' : Draft} (hd : d.unplaced = d'.unplaced) :
    Lockstep x y i (gather run policy d segments) (gather run' policy d' segments)
      (GatherAlike x y k) := by
  induction segments generalizing i d d' with
  | nil => exact lockstep_pure ⟨hd, hik⟩
  | cons s rest ih =>
    refine (hrun s List.mem_cons_self i).bind fun j o o' hj h => ?_
    rw [h.isMatch_eq]
    split
    · refine lockstep_get_bind fun t t' _ => ?_
      have hadd : Draft.resultUnplaced (d.add o policy t.lastEnd) =
          Draft.resultUnplaced (d'.add o' policy t'.lastEnd) := by
        rw [← d.unplaced_add o policy t.lastEnd .start,
          ← d'.unplaced_add o' policy t'.lastEnd .start, hd, h.alike]
      refine (lockstep_ofExcept hadd).bind ?_
      rintro _ e e' hl ⟨rfl, he⟩
      have hkj := Nat.le_trans hik (h.start_le hi)
      exact ih (fun s' hs' => hrun s' (List.mem_cons_of_mem s hs')) hl hkj he
    · next hm => exact lockstep_pure ⟨by simpa using hm, h.done hi hik⟩

theorem lockstep_ruleBody {k : Nat} (hk : x.Looked k) {r : Rule}
    (hconvert : ∀ v w : Value, v.unplaced = w.unplaced →
      (r.convert v).unplaced = (r.convert w).unplaced)
    (hrun : ∀ s ∈ r.segments, Paired x y (run s) (run' s)) :
    Lockstep x y k (ruleBody run r) (ruleBody run' r) (Done x y k) := by
  refine (lockstep_gather r.nesting hrun hk.1 (Nat.le_refl k) rfl).bind fun j a b hj h => ?_
  cases a with
  | error o =>
    cases b with
    | ok d' => exact h.elim
    | error o' => exact lockstep_pure h.2
  | ok d =>
    cases b with
    | error o' => exact h.elim
    | ok d' =>
      have hclose : (d.close r.kind).map Value.unplaced = (d'.close r.kind).map Value.unplaced := by
        rw [← Draft.unplaced_close, ← Draft.unplaced_close, h.1]
      have hdata : ((d.close r.kind).map r.convert).map Value.unplaced =
          ((d'.close r.kind).map r.convert).map Value.unplaced := by
        rcases cases_of_map_eq hclose with ⟨hv, hw⟩ | ⟨v, w, hv, hw, hvw⟩
        · rw [hv, hw]
        · rw [hv, hw]
          exact congrArg some (hconvert v w hvw)
      refine lockstep_pure (.matched ?_ ?_ ?_ h.2)
      · rw [Outcome.mapData_ofData?, Outcome.isMatch_ofData?]
      · rw [Outcome.mapData_ofData?, Outcome.isMatch_ofData?]
      · rw [Outcome.mapData_ofData?, Outcome.mapData_ofData?, Outcome.unplaced_ofData?,
          Outcome.unplaced_ofData?, hdata]

end

end Descent
