import Descent.Proofs.Parallel

/-!
# Repetitions side by side

The loops of repetitions and of expressions take as many steps on the one text as on the other. The
number of steps that a loop may take comes from the characters left, which differ between the texts,
but on either text it is more than the tokens that are left.

* `lockstep_elementsUntilEnd`, `lockstep_elementsUntil`: every step reads a token.
* `lockstep_separatedElements`: a list. A step that reads nothing repeats itself on both texts, and
  the list has no end on either one (`endless_of_idle`).
* `lockstep_expressionFrom`: every step reads an operator.
-/
namespace Descent

open Descent.Stream

variable {x y : Tokenized}

/-! ## Runs that read nothing -/

/-- From some states at the place `k` both runs match and read nothing. -/
def IdleAt (x y : Tokenized) (k : Nat) (p : Parse x.lexer Outcome) (q : Parse y.lexer Outcome) :
    Prop :=
  ∃ s t o s' o' t', Level x y k s t ∧ p s = .ok o s' ∧ q t = .ok o' t' ∧ o.isMatch = true ∧
    Ran x y k k o o'

section

variable {p : Parse x.lexer Outcome} {q : Parse y.lexer Outcome} {k : Nat}

theorem Paired.witnessed (h : Paired x y p q) (k : Nat) :
    Lockstep x y k p q fun j o o' =>
      Ran x y k j o o' ∧ (j = k → o.isMatch = true → IdleAt x y k p q) := by
  intro s t hl
  rcases h k s t hl with ⟨o, s', o', t', j, hp, hq, hl', hr⟩ | herror
  · refine Or.inl ⟨o, s', o', t', j, hp, hq, hl', hr, ?_⟩
    rintro rfl hm
    exact ⟨s, t, o, s', o', t', hl, hp, hq, hm, hr⟩
  · exact Or.inr herror

/-- A match that on one of the texts has read nothing has read nothing on the other. -/
theorem Ran.idle_iff {j : Nat} {o o' : Outcome} (h : Ran x y k j o o') (hm : o.isMatch = true) :
    (o.progress = 0 ↔ j = x.seen k) ∧ (o'.progress = 0 ↔ j = x.seen k) := by
  cases h with
  | failed hf => rw [hm] at hf; cases hf
  | matched _ _ _ _ idle idle' => exact ⟨idle, idle'⟩

/-- If some states at a place let both runs read nothing, all states there do: each state of the one
stream can be paired with each state of the other. -/
theorem IdleAt.spread (hi : IdleAt x y k p q) (h : Paired x y p q) (hk : x.Looked k)
    {s : Stream x.lexer} {t : Stream y.lexer} (hl : Level x y k s t) :
    ∃ o s' o' t', p s = .ok o s' ∧ q t = .ok o' t' ∧ o.isMatch = true ∧ o'.isMatch = true ∧
      Level x y k s' t' := by
  have hseen := x.seen_of_looked hk
  obtain ⟨s₀, t₀, o₀, s₀', o₀', t₀', hl₀, hp₀, hq₀, hm₀, hr₀⟩ := hi
  -- First the state on the left is exchanged, then the one on the right.
  rcases h k s t₀ ⟨hl.le, hl.left, hl₀.right⟩ with
    ⟨o, s', o', t', j, hp, hq, hl', hr⟩ | ⟨e, s', e', t', -, hq, -⟩
  · rw [hq₀] at hq
    cases hq
    have hm : o.isMatch = true := by rw [← hr.isMatch_eq, hr₀.isMatch_eq, hm₀]
    have hidle : o.progress = 0 := by
      have hprogress := (hr₀.idle_iff hm₀).2.2 hseen.symm
      exact (hr.idle_iff hm).1.2 ((hr.idle_iff hm).2.1 hprogress)
    rcases h k s t hl with ⟨o₁, s₁, o₁', t₁, j₁, hp₁, hq₁, hl₁, hr₁⟩ | ⟨e, s₁, e', t₁, hp₁, -, -⟩
    · rw [hp] at hp₁
      cases hp₁
      have hj : j₁ = k := by rw [(hr₁.idle_iff hm).1.1 hidle, hseen]
      subst hj
      exact ⟨o, s', o₁', t₁, hp, hq₁, hm, by rw [hr₁.isMatch_eq, hm], hl₁⟩
    · rw [hp] at hp₁
      cases hp₁
  · rw [hq₀] at hq
    cases hq

end

/-! ## Required elements -/

/-- Where no message is given, both report the token that stands next. -/
theorem lockstep_complaint_success (hxy : x.Alike y) (k : Nat) :
    Lockstep x y k (Parse.complaint .success) (Parse.complaint .success) fun _ e e' =>
      e.unplaced = e'.unplaced := by
  refine (readAlike_position hxy k).ofPull.bind ?_
  rintro j p q - rfl
  refine (readAlike_peek hxy _).ofPull.bind ?_
  rintro _ a b - ⟨rfl, hab, -⟩
  rcases cases_of_map_eq hab with ⟨rfl, rfl⟩ | ⟨t, u, rfl, rfl, htu⟩
  · exact lockstep_pure rfl
  · refine lockstep_pure ?_
    rw [Token.shown_eq_of_content htu]
    rfl

/-- What is reported of a failure does not depend on its places. -/
theorem lockstep_complaint (hxy : x.Alike y) (k : Nat) {o o' : Outcome}
    (h : o.unplaced = o'.unplaced) (hm : o.isMatch = false) :
    Lockstep x y k (Parse.complaint o) (Parse.complaint o') fun _ e e' =>
      e.unplaced = e'.unplaced := by
  have hmessage : o.message? = o'.message? := by
    have := congrArg Outcome.message? h
    rwa [Outcome.message?_unplaced, Outcome.message?_unplaced] at this
  have hm' : o'.isMatch = false := by
    rw [← Outcome.isMatch_unplaced, ← h, Outcome.isMatch_unplaced, hm]
  obtain ⟨verdict, key, nesting, progress⟩ := o
  obtain ⟨verdict', key', nesting', progress'⟩ := o'
  cases verdict with
  | matched data => cases hm
  | failed f =>
    cases verdict' with
    | matched data => cases hm'
    | failed f' =>
      obtain ⟨message, position, reached⟩ := f
      obtain ⟨message', position', reached'⟩ := f'
      obtain rfl : message = message' := hmessage
      cases message with
      | none => exact lockstep_complaint_success hxy k
      | some text => exact lockstep_pure rfl

section

variable {element : Parse x.lexer Outcome} {element' : Parse y.lexer Outcome}
  (hxy : x.Alike y) (he : Paired x y element element') (k : Nat)
include hxy he

theorem lockstep_required :
    Lockstep x y k (required element) (required element') fun j o o' =>
      Ran x y k j o o' ∧ o.isMatch = true ∧ (j = k → IdleAt x y k element element') := by
  refine (he.witnessed k).bind fun j o o' hj ⟨h, hidle⟩ => ?_
  rw [h.isMatch_eq]
  split
  · next hm => exact lockstep_pure ⟨h, hm, fun hjk => hidle hjk hm⟩
  · next hm =>
    exact (lockstep_complaint hxy j h.alike (by simpa using hm)).bind
      fun _ _ _ _ he => lockstep_refuse he

/-- A required step reads a token on both texts, or is refused on both. -/
theorem lockstep_requiredStep :
    Lockstep x y k (requiredStep element) (requiredStep element') fun j o o' =>
      o.unplaced = o'.unplaced ∧ x.seen k < j := by
  refine (readAlike_position hxy k).ofPull.bind ?_
  rintro _ p q hk rfl
  refine (lockstep_required hxy he _).bind fun j o o' hj ⟨h, hm, _⟩ => ?_
  have hseen : x.seen (x.seen k) = x.seen k := x.seen_of_looked x.looked_seen
  cases h with
  | failed hf => rw [hm] at hf; cases hf
  | matched _ _ alike le idle idle' =>
    rw [hseen] at le idle idle'
    by_cases hidle : j = x.seen k
    · rw [if_pos (idle.2 hidle), if_pos (idle'.2 hidle)]
      exact lockstep_refuse rfl
    · rw [if_neg fun h => hidle (idle.1 h), if_neg fun h => hidle (idle'.1 h)]
      exact lockstep_pure ⟨alike, by omega⟩

end

/-! ## Repetitions -/

theorem map_unplaced_toList {o o' : Outcome} (h : o.unplaced = o'.unplaced) :
    o.data?.toList.map Value.unplaced = o'.data?.toList.map Value.unplaced := by
  rw [← Option.toList_map, ← Option.toList_map, Outcome.alike_data? h]

/-- Lists of values that say the same, at a place not before `k`. -/
def ItemsAlike (k j : Nat) (items others : List Value) : Prop :=
  items.map Value.unplaced = others.map Value.unplaced ∧ k ≤ j

theorem ItemsAlike.cons {k i j : Nat} {o o' : Outcome} {items others : List Value}
    (h : ItemsAlike i j items others) (ho : o.unplaced = o'.unplaced) (hk : k ≤ i) :
    ItemsAlike k j (o.data?.toList ++ items) (o'.data?.toList ++ others) := by
  refine ⟨?_, Nat.le_trans hk h.2⟩
  rw [List.map_append, List.map_append, map_unplaced_toList ho, h.1]

theorem unplaced_withData_list {items others : List Value}
    (h : items.map Value.unplaced = others.map Value.unplaced) :
    (Outcome.withData (.list items)).unplaced = (Outcome.withData (.list others)).unplaced := by
  simp only [Outcome.withData, Outcome.unplaced, Option.map_some, Value.unplaced_list, h]

section

variable {element terminator : Parse x.lexer Outcome} {element' terminator' : Parse y.lexer Outcome}
  (hxy : x.Alike y) (he : Paired x y element element')
include hxy he

theorem lockstep_elementsUntilEnd {k fuel fuel' : Nat} (hk : k ≤ x.count + 1)
    (hfuel : x.count - k < fuel) (hfuel' : x.count - k < fuel') :
    Lockstep x y k (elementsUntilEnd element fuel) (elementsUntilEnd element' fuel')
      (ItemsAlike k) := by
  induction fuel generalizing k fuel' with
  | zero => omega
  | succ fuel ih =>
    obtain ⟨fuel', rfl⟩ : ∃ m, fuel' = m + 1 := ⟨fuel' - 1, by omega⟩
    refine (readAlike_atEnd hxy k).ofPull.bind ?_
    rintro _ done done' - ⟨rfl, rfl, rfl⟩
    by_cases hend : x.count ≤ k
    · rw [decide_eq_true hend]
      exact lockstep_pure ⟨rfl, x.le_seen hk⟩
    · rw [decide_eq_false hend, x.seen_of_lt (by omega)]
      refine (lockstep_requiredStep hxy he k).bind fun j o o' hj ⟨alike, hkj⟩ => ?_
      rw [x.seen_of_lt (by omega)] at hkj
      refine (ih hj (by omega) (by omega)).bind fun l items others hl h => ?_
      exact lockstep_pure (h.cons alike (by omega))

theorem lockstep_elementsUntil (ht : Paired x y terminator terminator') {k fuel fuel' : Nat}
    (hk : k ≤ x.count + 1) (hfuel : x.count - k < fuel) (hfuel' : x.count - k < fuel') :
    Lockstep x y k (elementsUntil terminator element fuel)
      (elementsUntil terminator' element' fuel') (ItemsAlike k) := by
  induction fuel generalizing k fuel' with
  | zero => omega
  | succ fuel ih =>
    obtain ⟨fuel', rfl⟩ : ∃ m, fuel' = m + 1 := ⟨fuel' - 1, by omega⟩
    have hle := x.le_seen hk
    refine (ht k).bind fun i c c' hi hc => ?_
    have hci := hc.le
    rw [hc.isMatch_eq]
    split
    · exact lockstep_pure ⟨rfl, by omega⟩
    · next hm =>
      obtain rfl : i = x.seen k := hc.back (by simpa using hm)
      refine (readAlike_atEnd hxy _).ofPull.bind ?_
      rintro _ done done' - ⟨rfl, rfl, rfl⟩
      rw [x.seen_of_looked x.looked_seen]
      by_cases hend : x.count ≤ x.seen k
      · rw [decide_eq_true hend]
        exact lockstep_pure ⟨rfl, hle⟩
      · rw [decide_eq_false hend]
        refine (lockstep_requiredStep hxy he _).bind fun j o o' hj ⟨alike, hkj⟩ => ?_
        rw [x.seen_of_looked x.looked_seen] at hkj
        refine (ih hj (by omega) (by omega)).bind fun l items others hl h => ?_
        exact lockstep_pure (h.cons alike (by omega))

end

/-- The steps allowed for a repetition are more than the places that are left. -/
theorem lockstep_steps (hxy : x.Alike y) (k : Nat) :
    Lockstep x y k steps steps fun j m m' =>
      j = k ∧ x.count + 1 - k < m ∧ x.count + 1 - k < m' := by
  refine lockstep_get_bind fun s t hl => ?_
  have hs := Tokenized.count_le_unread hl.left
  have ht := Tokenized.count_le_unread hl.right
  have := hxy.count_eq
  exact lockstep_pure ⟨rfl, by omega, by omega⟩

section

variable {element : Parse x.lexer Outcome} {element' : Parse y.lexer Outcome}
  (hxy : x.Alike y) (he : Paired x y element element') {k : Nat} (hk : x.Looked k)
include hxy he hk

theorem lockstep_untilEndBody :
    Lockstep x y k (untilEndBody element) (untilEndBody element') (Done x y k) := by
  refine (lockstep_steps hxy k).bind ?_
  rintro _ m m' - ⟨rfl, hm, hm'⟩
  refine (lockstep_elementsUntilEnd hxy he hk.1 (by omega) (by omega)).bind
    fun j items others hj h => ?_
  exact lockstep_pure (.matched rfl rfl (unplaced_withData_list h.1) h.2)

theorem lockstep_untilMatchBody {terminator : Parse x.lexer Outcome}
    {terminator' : Parse y.lexer Outcome} (ht : Paired x y terminator terminator') :
    Lockstep x y k (untilMatchBody terminator element) (untilMatchBody terminator' element')
      (Done x y k) := by
  refine (lockstep_steps hxy k).bind ?_
  rintro _ m m' - ⟨rfl, hm, hm'⟩
  refine (lockstep_elementsUntil hxy he ht hk.1 (by omega) (by omega)).bind
    fun j items others hj h => ?_
  exact lockstep_pure (.matched rfl rfl (unplaced_withData_list h.1) h.2)

end

/-! ## Lists -/

/-- The elements of a list say the same, and so does what comes behind it. -/
def ListAlike (x y : Tokenized) (k j : Nat) (list other : List Value × Outcome) : Prop :=
  list.1.map Value.unplaced = other.1.map Value.unplaced ∧ Done x y k j list.2 other.2

section

variable {separator element : Parse x.lexer Outcome} {separator' element' : Parse y.lexer Outcome}
  (he : Paired x y element element') (hs : Paired x y separator separator') {k : Nat}
include he hs

/-- A list whose elements and separators read nothing goes on for ever on both texts. -/
theorem endless_of_idle (closing : Parse x.lexer Outcome) (closing' : Parse y.lexer Outcome)
    (hk : x.Looked k) (hei : IdleAt x y k element element')
    (hsi : IdleAt x y k separator separator') (fuel : Nat) {s : Stream x.lexer}
    {t : Stream y.lexer} (hl : Level x y k s t) :
    (∃ s', separatedElements closing separator element fuel s = .error .endless s') ∧
      ∃ t', separatedElements closing' separator' element' fuel t = .error .endless t' := by
  induction fuel generalizing s t with
  | zero => exact ⟨⟨s, rfl⟩, t, rfl⟩
  | succ fuel ih =>
    obtain ⟨o, s₁, o', t₁, hp, hq, hm, hm', hl₁⟩ := hei.spread he hk hl
    obtain ⟨c, s₂, c', t₂, hp', hq', hc, hc', hl₂⟩ := hsi.spread hs hk hl₁
    obtain ⟨⟨s', hs'⟩, t', ht'⟩ := ih hl₂
    refine ⟨⟨s', ?_⟩, t', ?_⟩
    · simp only [separatedElements, required, bind_apply, hp, hm, if_true, pure_apply, hp', hc, hs']
    · simp only [separatedElements, required, bind_apply, hq, hm', if_true, pure_apply, hq', hc',
        ht']

/-- Every step of a list reads something, or the list is endless on both texts. -/
theorem lockstep_separatedElements {closing : Parse x.lexer Outcome}
    {closing' : Parse y.lexer Outcome} (hxy : x.Alike y) (hc : Paired x y closing closing')
    {fuel fuel' : Nat} (hk : k ≤ x.count + 1) (hfuel : x.count + 1 - k < fuel)
    (hfuel' : x.count + 1 - k < fuel') :
    Lockstep x y k (separatedElements closing separator element fuel)
      (separatedElements closing' separator' element' fuel') (ListAlike x y k) := by
  induction fuel generalizing k fuel' with
  | zero => omega
  | succ fuel ih =>
    obtain ⟨fuel', rfl⟩ : ∃ m, fuel' = m + 1 := ⟨fuel' - 1, by omega⟩
    by_cases hidle : x.Looked k ∧ IdleAt x y k element element' ∧ IdleAt x y k separator separator'
    · obtain ⟨hlooked, hei, hsi⟩ := hidle
      intro s t hl
      obtain ⟨⟨s', hx⟩, -⟩ := endless_of_idle he hs closing closing' hlooked hei hsi (fuel + 1) hl
      obtain ⟨-, t', hy⟩ := endless_of_idle he hs closing closing' hlooked hei hsi (fuel' + 1) hl
      exact Or.inr ⟨.endless, s', .endless, t', hx, hy, rfl⟩
    · have hkseen := x.le_seen hk
      refine (lockstep_required hxy he k).bind fun i o o' hi ⟨ho, _, hei⟩ => ?_
      have hki := ho.le
      refine (hs.witnessed i).bind fun j c c' hj ⟨hc', hsi⟩ => ?_
      have hij := hc'.start_le hi
      have hdata := map_unplaced_toList ho.alike
      rw [hc'.isMatch_eq]
      split
      · next hm =>
        -- Where this step has read nothing, both of its runs were idle at the place `k`.
        have hkj : k < j := by
          refine Nat.lt_of_not_le fun hle => ?_
          have hik : i = k := by omega
          have hji : j = i := by omega
          have hlooked : x.Looked k := by
            rw [show k = x.seen k by omega]
            exact x.looked_seen
          exact hidle ⟨hlooked, hei hik, hik ▸ hsi hji hm⟩
        refine (ih hj (by omega) (by omega)).bind fun l list other hl h => ?_
        obtain ⟨items, closed⟩ := list
        obtain ⟨others, closed'⟩ := other
        refine lockstep_pure ⟨?_, h.2.of_le (by omega)⟩
        rw [List.map_append, List.map_append, hdata, h.1]
      · refine (hc j).bind fun l closed closed' hl h => ?_
        exact lockstep_pure ⟨hdata, h.done hj (by omega)⟩

theorem lockstep_delimitedBody {opening closing : Parse x.lexer Outcome}
    {opening' closing' : Parse y.lexer Outcome} (hxy : x.Alike y) (hk : x.Looked k)
    (ho : Paired x y opening opening') (hc : Paired x y closing closing') :
    Lockstep x y k (delimitedBody opening closing separator element)
      (delimitedBody opening' closing' separator' element') (Done x y k) := by
  refine (ho k).bind fun i o o' hi hopen => ?_
  have hki : k ≤ i := hopen.start_le hk.1
  rw [hopen.isMatch_eq]
  cases o.isMatch with
  | false => exact lockstep_pure (hopen.done hk.1 (Nat.le_refl k))
  | true =>
    refine (hc i).bind fun j c c' hj hclose => ?_
    have hkj : k ≤ j := Nat.le_trans hki (hclose.start_le hi)
    rw [hclose.isMatch_eq]
    cases c.isMatch with
    | true => exact lockstep_pure (.matched rfl rfl rfl hkj)
    | false =>
      refine (lockstep_steps hxy j).bind ?_
      rintro _ m m' - ⟨rfl, hm, hm'⟩
      refine (lockstep_separatedElements he hs hxy hc hj hm hm').bind fun l list other hl h => ?_
      obtain ⟨items, closed⟩ := list
      obtain ⟨others, closed'⟩ := other
      have hkl : k ≤ l := Nat.le_trans hkj h.2.le
      have hmatch : closed'.isMatch = closed.isMatch := h.2.isMatch_eq
      simp only [hmatch]
      cases closed.isMatch with
      | true => exact lockstep_pure (.matched rfl rfl (unplaced_withData_list h.1) hkl)
      | false => exact lockstep_pure (h.2.of_le hkj)

end

/-! ## Expressions -/

theorem tierOf?_eq_of_content {t u : Token} (h : t.content = u.content) (tiers : List Tier) :
    tierOf? tiers t = tierOf? tiers u := by
  unfold tierOf? Tier.contains
  simp only [Token.is_eq_of_content h]

theorem unplaced_operation (span : Span) (operator : TokenValue) (left right : Value) :
    (operation span operator left right).unplaced =
      operation .nowhere operator left.unplaced right.unplaced := by
  simp only [operation, Value.unplaced_node, Node.unplaced_insert, TokenValue.unplaced_toValue]
  rfl

/-- The same operator is found on both texts. -/
theorem lockstep_operatorAbove? (hxy : x.Alike y) (k : Nat) (tiers : List Tier)
    (floor : Option Nat) :
    Lockstep x y k (operatorAbove? tiers floor) (operatorAbove? tiers floor) fun j a b =>
      j = x.seen k ∧ a = b ∧ (a ≠ none → k < x.count) := by
  refine (readAlike_peek hxy k).ofPull.bind ?_
  rintro _ a b - ⟨rfl, hab, hnone⟩
  rcases cases_of_map_eq hab with ⟨rfl, rfl⟩ | ⟨t, u, rfl, rfl, htu⟩
  · exact lockstep_pure ⟨rfl, rfl, fun h => absurd rfl h⟩
  · have hlt : k < x.count := Nat.lt_of_not_le fun h => by cases hnone.2 h
    simp only [tierOf?_eq_of_content htu]
    cases tierOf? tiers u with
    | none => exact lockstep_pure ⟨rfl, rfl, fun _ => hlt⟩
    | some tier =>
      simp only
      split
      · exact lockstep_pure ⟨rfl, rfl, fun _ => hlt⟩
      · exact lockstep_pure ⟨rfl, rfl, fun _ => hlt⟩

theorem unplaced_getD {o o' : Outcome} (h : o.unplaced = o'.unplaced) :
    (o.data?.getD .null).unplaced = (o'.data?.getD .null).unplaced := by
  rcases cases_of_map_eq (Outcome.alike_data? h) with ⟨hv, hw⟩ | ⟨v, w, hv, hw, hvw⟩
  · rw [hv, hw]
  · rw [hv, hw]
    exact hvw

/-- A failure that is taken back to an earlier place, from which the stream has looked. -/
theorem Done.returned {i j k : Nat} {o o' : Outcome} (h : Done x y i j o o')
    (hm : o.isMatch = false) (hk : x.Looked k) : Done x y k k o o' := by
  cases h with
  | matched hm' => rw [hm] at hm'; cases hm'
  | noticed _ hm' alike _ _ reached reached' =>
    exact .noticed hm hm' alike (Nat.le_refl k) hk reached reached'
  | passed _ hm' alike le r jr looked reached reached' =>
    exact .passed hm hm' alike (Nat.le_refl k) r (.inr hk) looked reached reached'

section

variable {operand : Parse x.lexer Outcome} {operand' : Parse y.lexer Outcome}
  (hxy : x.Alike y) (ho : Paired x y operand operand')
include hxy ho

theorem lockstep_operandThen {i : Nat} (hi : i ≤ x.count + 1)
    {more : Position → Value → Parse x.lexer Outcome}
    {more' : Position → Value → Parse y.lexer Outcome}
    (hmore : ∀ j p q v w, i ≤ j → j ≤ x.count + 1 → v.unplaced = w.unplaced →
      Lockstep x y j (more p v) (more' q w) (Done x y j)) :
    Lockstep x y i (operandThen operand more) (operandThen operand' more') (Done x y i) := by
  have hseen := x.le_seen hi
  refine (readAlike_position hxy i).ofPull.bind ?_
  rintro _ p q hs rfl
  refine (ho _).bind fun j o o' hj h => ?_
  have hij : i ≤ j := Nat.le_trans hseen (h.start_le hs)
  rw [h.isMatch_eq]
  split
  · exact (hmore j p q _ _ hij hj (unplaced_getD h.alike)).mono fun _ _ _ _ hd => hd.of_le hij
  · exact lockstep_pure (h.done hs hseen)

theorem lockstep_expressionFrom (tiers : List Tier) {k fuel fuel' : Nat} (hk : k ≤ x.count + 1)
    (hfuel : x.count - k < fuel) (hfuel' : x.count - k < fuel') (floor : Option Nat)
    (start start' : Position) {left left' : Value} (hleft : left.unplaced = left'.unplaced) :
    Lockstep x y k (expressionFrom operand tiers fuel floor start left)
      (expressionFrom operand' tiers fuel' floor start' left') (Done x y k) := by
  induction fuel generalizing k fuel' floor start start' left left' with
  | zero => omega
  | succ fuel ih =>
    obtain ⟨fuel', rfl⟩ : ∃ m, fuel' = m + 1 := ⟨fuel' - 1, by omega⟩
    have hdata : (Outcome.withData left).unplaced = (Outcome.withData left').unplaced := by
      simp only [Outcome.withData, Outcome.unplaced, Option.map_some, hleft]
    refine (lockstep_operatorAbove? hxy k tiers floor).bind ?_
    rintro _ operator _ - ⟨rfl, rfl, hsome⟩
    cases operator with
    | none => exact lockstep_pure (.matched rfl rfl hdata (x.le_seen hk))
    | some found =>
      obtain ⟨tier, associativity⟩ := found
      have hlt : k < x.count := hsome (by simp)
      have hlooked : x.Looked k := ⟨hk, by omega⟩
      rw [x.seen_of_lt hlt]
      refine lockstep_get_bind fun before before' hbefore => ?_
      refine (readAlike_next hxy k).ofPull.bind ?_
      rintro _ a b - ⟨rfl, hab⟩
      rw [Nat.min_eq_left (by omega)]
      rcases cases_of_map_eq hab with ⟨rfl, rfl⟩ | ⟨t, u, rfl, rfl, htu⟩
      · exact lockstep_pure (.matched rfl rfl hdata (by omega))
      · have hvalue : t.value = u.value := by injection htu
        refine (lockstep_operandThen hxy ho (show k + 1 ≤ x.count + 1 by omega)
          fun j p q v w hkj hj hvw => ih hj (by omega) (by omega) _ p q hvw).bind
            fun j o o' hj h => ?_
        have hkj := h.le
        rw [h.isMatch_eq]
        cases hm : o.isMatch with
        | true =>
          refine lockstep_get_bind fun s s' _ => ?_
          refine (ih hj (by omega) (by omega) floor start start' ?_).mono
            fun _ _ _ _ hd => hd.of_le (by omega)
          rw [unplaced_operation, unplaced_operation, hleft, hvalue, unplaced_getD h.alike]
        | false =>
          refine lockstep_modify_bind (fun s s' hl => hbefore.returnTo hl) ?_
          exact lockstep_pure (h.returned hm hlooked)

theorem lockstep_binaryBody (tiers : List Tier) {k : Nat} (hk : k ≤ x.count + 1) :
    Lockstep x y k (binaryBody operand tiers) (binaryBody operand' tiers) (Done x y k) := by
  refine lockstep_operandThen hxy ho hk fun j p q v w _ hj hvw => ?_
  refine lockstep_get_bind fun s t hl => ?_
  have hs := Tokenized.count_le_unread hl.left
  have ht := Tokenized.count_le_unread hl.right
  have := hxy.count_eq
  exact lockstep_expressionFrom hxy ho tiers hj (by omega) (by omega) none p q hvw

end

end Descent
