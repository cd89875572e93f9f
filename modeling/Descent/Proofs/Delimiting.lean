import Descent.Proofs.Looking
import Descent.Proofs.Unbounded

/-!
# Lists in delimiters

A delimited list runs its opening delimiter and then asks in turn for what may come next. Each
question that is answered with a failure leaves the stream as it was, so what comes next begins
where the last match ended. The closing delimiter is asked for in two places, behind the opening one
and behind an element that no separator follows, and never behind a separator.

* `Segment.Listed`: elements with separators between them.
* `Segment.Closable`, `Segment.Wanting`: where the closing delimiter is due, and where an element.
* `listLoop_ok`, `listLoop_of_listed`: the loop against the elements it went by.
* `delimited_outcome`: what a delimited list accepts, where it fails and where it is refused.
-/
namespace Descent

open Descent.Stream

variable {lexer : Lexer} {text : String} {g : Grammar} {s t u v w : Stream lexer}
  {opening closing separator element : Segment} {o : Outcome} {os : List Outcome} {fuel : Nat}
  {found : Option Token} {seen : Stream lexer}

/-! ## The parts of a list -/

/-- The data of the outcomes, in order. -/
def collected (os : List Outcome) : List Value := os.flatMap fun o => o.data?.toList

theorem collected_cons (o : Outcome) (os : List Outcome) :
    collected (o :: os) = o.data?.toList ++ collected os := rfl

namespace Segment

/-- One or more elements, with a separator between any two of them. Each begins where the one before
it ended. -/
inductive Listed (g : Grammar) (separator element : Segment) :
    Stream lexer → List Outcome → Stream lexer → Prop
  | one {s t : Stream lexer} {o : Outcome} (h : element.Matches g s o t) :
    Listed g separator element s [o] t
  | more {s t u v : Stream lexer} {o p : Outcome} {os : List Outcome}
    (h : element.Matches g s o t) (hsep : separator.Matches g t p u)
    (hrest : Listed g separator element u os v) : Listed g separator element s (o :: os) v

/-- A list that begins in `s` has these elements, and in `t` its closing delimiter is due. -/
inductive Closable (g : Grammar) (opening closing separator element : Segment) :
    Stream lexer → List Outcome → Stream lexer → Prop
  | empty {s t : Stream lexer} {o : Outcome} (ho : opening.Matches g s o t) :
    Closable g opening closing separator element s [] t
  | behind {s t u : Stream lexer} {o c p : Outcome} {os : List Outcome}
    (ho : opening.Matches g s o t) (hc : closing.Fails g t c)
    (hl : Listed g separator element t os u) (hsep : separator.Fails g u p) :
    Closable g opening closing separator element s os u

/-- In a list that begins in `s` an element is due in `t`. -/
inductive Wanting (g : Grammar) (opening closing separator element : Segment) :
    Stream lexer → Stream lexer → Prop
  | first {s t : Stream lexer} {o c : Outcome} (ho : opening.Matches g s o t)
    (hc : closing.Fails g t c) : Wanting g opening closing separator element s t
  | behind {s t u v : Stream lexer} {o c p : Outcome} {os : List Outcome}
    (ho : opening.Matches g s o t) (hc : closing.Fails g t c)
    (hl : Listed g separator element t os u) (hsep : separator.Matches g u p v) :
    Wanting g opening closing separator element s v

end Segment

theorem Segment.Listed.ne_nil (h : Segment.Listed g separator element s os t) : os ≠ [] := by
  cases h <;> exact List.cons_ne_nil _ _

/-! ## Elements that have to match -/

theorem required_of_match (h : element.Matches g u o t) :
    required (element.run g) u = .ok o t := by
  simp only [required, bind_apply, h.1, h.2, if_true]
  rfl

/-- The report that nothing but the next token tells of. -/
def unexpected : Parse lexer ParseError := do
  let position ← Parse.position
  match ← Parse.peek with
  | some token => return .mismatch position ("Unexpected " ++ token.shown)
  | none => return .mismatch position "Unexpected end of input"

theorem complaint_cases (lexer : Lexer) (o : Outcome) :
    (∃ position message, (Parse.complaint o : Parse lexer ParseError) =
      pure (.mismatch position message)) ∨
    (Parse.complaint o : Parse lexer ParseError) = unexpected := by
  unfold Parse.complaint
  split
  · exact .inl ⟨_, _, rfl⟩
  · exact .inr rfl

/-- Where a look succeeds a failure can be reported. -/
theorem complaint_of_peek (hp : peek v = .ok found seen) (o : Outcome) :
    ∃ position message t, Parse.complaint o v = .ok (.mismatch position message) t := by
  rcases complaint_cases lexer o with ⟨position, message, h⟩ | h <;> rw [h]
  · exact ⟨position, message, v, rfl⟩
  · obtain ⟨start, hstart⟩ := position_of_looked (peek_again hp)
    have hposition : Stream.position v = .ok start (seen.atDepth v.depth) :=
      (position_of_peek hp v.depth).trans (hstart _)
    have hpeek : peek (seen.atDepth v.depth) = .ok found (seen.atDepth v.depth) :=
      peek_looked (peek_again hp) _
    simp only [unexpected, bind_apply, position_apply, hposition, Parse.peek, Parse.ofPull, hpeek]
    cases found <;> exact ⟨_, _, _, rfl⟩

/-- The report is the same wherever the stream looks the same. -/
theorem complaint_of_looksLike (huv : u.LooksLike v) (o : Outcome) :
    valueOf (Parse.complaint o u) = valueOf (Parse.complaint o v) := by
  rcases complaint_cases lexer o with ⟨position, message, h⟩ | h <;> rw [h]
  · rfl
  · refine Meets.valueOf_eq (E := Same) (huv.meets_position.bind fun p s' t' _ _ hsame => ?_)
    refine (mirrors_peek s' t' hsame).bind fun found s'' t'' _ _ hsame' => ?_
    cases found <;> exact .ok _ hsame'

/-- An element that fails where it has to match is refused. -/
theorem required_of_fails (h : element.Fails g v o) (hu : u.Reachable text)
    (huv : u.LooksLike v) : ∃ position message t,
      required (element.run g) u = .error (.error (.mismatch position message)) t ∧
        valueOf (Parse.complaint o v) = .ok (.mismatch position message) := by
  obtain ⟨u', hrun, -, hlook⟩ := h.again hu huv
  obtain ⟨found, seen, hp⟩ : ∃ found seen, peek v = .ok found seen :=
    let ⟨_, _, ht⟩ := h
    peek_of_run ht
  obtain ⟨seen', hp', -⟩ := hlook.peek_eq hp
  obtain ⟨position, message, t, hcomplaint⟩ := complaint_of_peek hp' o
  refine ⟨position, message, t, ?_, by rw [← complaint_of_looksLike hlook, hcomplaint]; rfl⟩
  simp only [required, bind_apply, hrun, h.1, Bool.false_eq_true, if_false, hcomplaint]
  rfl

/-! ## The loop -/

/-- What the loop does behind an element. -/
def behindElement (closing separator element : Parse lexer Outcome) (fuel : Nat) (o : Outcome) :
    Parse lexer (List Value × Outcome) := do
  if (← separator).isMatch then
    let (items, closed) ← separatedElements closing separator element fuel
    return (o.data?.toList ++ items, closed)
  else
    let closed ← closing
    return (o.data?.toList, closed)

theorem separatedElements_succ (closing separator element : Parse lexer Outcome) (fuel : Nat) :
    separatedElements closing separator element (fuel + 1) =
      required element >>= behindElement closing separator element fuel := rfl

theorem bind_congr_apply {α β : Type} {x y : Parse lexer α} {s s' : Stream lexer} (h : x s = y s')
    (f : α → Parse lexer β) : (x >>= f) s = (y >>= f) s' := by
  rw [bind_apply, bind_apply, h]

section

variable (g) (closing separator element : Segment)

/-- The loop over the segments of a list. -/
abbrev listLoop (fuel : Nat) : Parse lexer (List Value × Outcome) :=
  separatedElements (closing.run g) (separator.run g) (element.run g) fuel

/-- The same behind an element. -/
abbrev listRest (fuel : Nat) (o : Outcome) : Parse lexer (List Value × Outcome) :=
  behindElement (closing.run g) (separator.run g) (element.run g) fuel o

end

section

variable (closing separator element fuel) (o) (hu : u.Reachable text) (huv : u.LooksLike v)
include hu huv

/-- The loop at an element that matches from a stream that looks the same. -/
theorem listLoop_of_match {element : Segment} {o : Outcome} (h : element.Matches g v o w) :
    ∃ u', u'.Reachable text ∧ Same u' w ∧
      listLoop g closing separator element (fuel + 1) u =
        listRest g closing separator element fuel o u' := by
  obtain ⟨u', hm, hsame⟩ := h.of_looksLike huv
  refine ⟨u', run_reachable hu hm.1, hsame, ?_⟩
  rw [listLoop, separatedElements_succ, bind_apply, required_of_match hm]

/-- At an element that fails it ends with the report. -/
theorem listLoop_of_fails {element : Segment} {o : Outcome} (h : element.Fails g v o) :
    ∃ position message t, listLoop g closing separator element (fuel + 1) u =
        .error (.error (.mismatch position message)) t ∧
      valueOf (Parse.complaint o v) = .ok (.mismatch position message) := by
  obtain ⟨position, message, t, hrequired, hvalue⟩ := required_of_fails h hu huv
  refine ⟨position, message, t, ?_, hvalue⟩
  rw [listLoop, separatedElements_succ, bind_apply, hrequired]

/-- Behind a separator the loop goes on with the next element. -/
theorem listRest_of_match {separator : Segment} {p : Outcome} (h : separator.Matches g v p w) :
    ∃ u', u'.Reachable text ∧ Same u' w ∧
      listRest g closing separator element fuel o u =
        (listLoop g closing separator element fuel >>=
          fun found => pure (o.data?.toList ++ found.1, found.2)) u' := by
  obtain ⟨u', hm, hsame⟩ := h.of_looksLike huv
  refine ⟨u', run_reachable hu hm.1, hsame, ?_⟩
  simp only [listRest, behindElement, bind_apply, hm.1, hm.2, if_true]

/-- Without a separator it asks for the closing delimiter, where it asked for the separator. -/
theorem listRest_of_fails {separator : Segment} {p : Outcome} (h : separator.Fails g v p) :
    ∃ u', u'.Reachable text ∧ u'.LooksLike v ∧
      listRest g closing separator element fuel o u =
        (closing.run g >>= fun closed => pure (o.data?.toList, closed)) u' := by
  obtain ⟨u', hrun, hu', hlook⟩ := h.again hu huv
  refine ⟨u', hu', hlook, ?_⟩
  simp only [listRest, behindElement, bind_apply, hrun, h.1, Bool.false_eq_true, if_false]

end

/-- A loop that ends went by elements with separators between them, and asked for the closing
delimiter where no separator was. -/
theorem listLoop_ok (hu : u.Reachable text) (huv : u.LooksLike v) {items : List Value}
    {closed : Outcome} (h : listLoop g closing separator element fuel u = .ok (items, closed) t) :
    ∃ os w t', Segment.Listed g separator element v os w ∧ (∃ p, separator.Fails g w p) ∧
      items = collected os ∧ closing.run g w = .ok closed t' ∧ Same t t' := by
  induction fuel generalizing u v items with
  | zero => cases h
  | succ fuel ih =>
    rcases run_cases g element v with ⟨o, v₁, helement⟩ | ⟨o, hfails⟩ | ⟨e, v₁, herror⟩
    · obtain ⟨u₁, hu₁, hsame, hloop⟩ := listLoop_of_match closing separator fuel hu huv helement
      have hlook : u₁.LooksLike v₁ := .of_same hsame
      rw [h] at hloop
      rcases run_cases g separator v₁ with ⟨p, v₂, hsep⟩ | ⟨p, hsep⟩ | ⟨e, v₂, herror⟩
      · obtain ⟨u₂, hu₂, hsame₂, hmore⟩ := listRest_of_match closing element o fuel hu₁ hlook hsep
        obtain ⟨⟨items', closed'⟩, t₁, hrest, hpure⟩ := ok_of_bind (hmore.symm.trans hloop.symm)
        cases hpure
        obtain ⟨os, w, t', hlisted, hend, rfl, hclosing⟩ := ih hu₂ (.of_same hsame₂) hrest
        exact ⟨o :: os, w, t', .more helement hsep hlisted, hend, rfl, hclosing⟩
      · obtain ⟨u₂, -, hlook₂, hend⟩ := listRest_of_fails closing element o fuel hu₁ hlook hsep
        obtain ⟨closed', t₁, hclosing, hpure⟩ := ok_of_bind (hend.symm.trans hloop.symm)
        cases hpure
        obtain ⟨t', ht', hsame'⟩ := run_ok_of_looksLike hclosing hlook₂.symm
        exact ⟨[o], v₁, t', .one helement, ⟨p, hsep⟩, by simp [collected], ht', hsame'.symm⟩
      · obtain ⟨u₂, herror'⟩ := run_error_of_looksLike herror hlook
        rw [listRest, behindElement, bind_apply, herror'] at hloop
        cases hloop
    · obtain ⟨_, _, _, hloop, -⟩ := listLoop_of_fails closing separator fuel hu huv hfails
      rw [h] at hloop
      cases hloop
    · obtain ⟨u₁, herror'⟩ := run_error_of_looksLike herror huv
      rw [listLoop, separatedElements_succ, bind_apply, required, bind_apply, herror'] at h
      cases h

/-- The loop goes by all elements that are there, unless it runs out of steps: it comes behind the
last of them with the data of all. -/
theorem listLoop_of_listed (closing : Segment) (h : Segment.Listed g separator element v os w)
    (hu : u.Reachable text) (huv : u.LooksLike v) (fuel : Nat) :
    (∃ t, listLoop g closing separator element fuel u = .error .endless t) ∨
      ∃ before o u' fuel', os = before ++ [o] ∧ u'.Reachable text ∧ u'.LooksLike w ∧
        listLoop g closing separator element fuel u =
          (listRest g closing separator element fuel' o >>=
            fun found => pure (collected before ++ found.1, found.2)) u' := by
  induction h generalizing u fuel with
  | one helement =>
    cases fuel with
    | zero => exact .inl ⟨u, rfl⟩
    | succ fuel =>
      obtain ⟨u', hu', hsame, hloop⟩ := listLoop_of_match closing separator fuel hu huv helement
      refine .inr ⟨[], _, u', fuel, rfl, hu', .of_same hsame, hloop.trans ?_⟩
      simp [collected]
  | @more v v₁ v₂ w o p os helement hsep hrest ih =>
    cases fuel with
    | zero => exact .inl ⟨u, rfl⟩
    | succ fuel =>
      obtain ⟨u₁, hu₁, hsame, hloop⟩ := listLoop_of_match closing separator fuel hu huv helement
      obtain ⟨u₂, hu₂, hsame₂, hmore⟩ :=
        listRest_of_match closing element o fuel hu₁ (.of_same hsame) hsep
      rcases ih hu₂ (.of_same hsame₂) fuel with
        ⟨t, ht⟩ | ⟨before, o', u', fuel', rfl, hu', hlook, heq⟩
      · exact .inl ⟨t, hloop.trans (hmore.trans (by rw [bind_apply, ht]))⟩
      · refine .inr ⟨o :: before, o', u', fuel', rfl, hu', hlook, hloop.trans (hmore.trans ?_)⟩
        rw [bind_congr_apply heq]
        simp [collected_cons]

/-- Where no separator is, the loop ends with the outcome of the closing delimiter. -/
theorem listLoop_of_ended {c p : Outcome} (h : Segment.Listed g separator element v os w)
    (hsep : separator.Fails g w p) (hclosing : closing.run g w = .ok c t)
    (hu : u.Reachable text) (huv : u.LooksLike v) (fuel : Nat) :
    (∃ t', listLoop g closing separator element fuel u = .error .endless t') ∨
      ∃ t', listLoop g closing separator element fuel u = .ok (collected os, c) t' ∧ Same t' t := by
  rcases listLoop_of_listed closing h hu huv fuel with
    hend | ⟨before, o, u', fuel', rfl, hu', hlook, heq⟩
  · exact .inl hend
  · obtain ⟨u₁, -, hlook₁, hrest⟩ := listRest_of_fails closing element o fuel' hu' hlook hsep
    obtain ⟨t', hrun, hsame⟩ := run_ok_of_looksLike hclosing hlook₁
    refine .inr ⟨t', heq.trans ?_, hsame⟩
    rw [bind_congr_apply hrest, bind_assoc, bind_apply, hrun]
    simp [collected, pure_apply]

/-- Behind a separator the loop is refused with the report of an element that fails there. -/
theorem listLoop_of_wanting {p : Outcome} (h : Segment.Listed g separator element v os w)
    (hsep : separator.Matches g w p t) (ho : element.Fails g t o)
    (hu : u.Reachable text) (huv : u.LooksLike v) (fuel : Nat) :
    (∃ t', listLoop g closing separator element fuel u = .error .endless t') ∨
      ∃ position message t', listLoop g closing separator element fuel u =
          .error (.error (.mismatch position message)) t' ∧
        valueOf (Parse.complaint o t) = .ok (.mismatch position message) := by
  rcases listLoop_of_listed closing h hu huv fuel with
    hend | ⟨before, o', u', fuel', rfl, hu', hlook, heq⟩
  · exact .inl hend
  · obtain ⟨u₁, hu₁, hsame, hrest⟩ := listRest_of_match closing element o' fuel' hu' hlook hsep
    rw [bind_congr_apply hrest, bind_assoc, bind_apply] at heq
    cases fuel' with
    | zero => exact .inl ⟨u₁, heq⟩
    | succ fuel' =>
      obtain ⟨position, message, t', hloop, hvalue⟩ :=
        listLoop_of_fails closing separator fuel' hu₁ (.of_same hsame) ho
      rw [hloop] at heq
      exact .inr ⟨position, message, t', heq, hvalue⟩

/-! ## The body -/

/-- What becomes of the loop. -/
def listOutcome (found : List Value × Outcome) : Outcome :=
  if found.2.isMatch then .withData (.list found.1) else found.2

/-- What the body of a list does behind its opening delimiter. -/
def openedBody (closing separator element : Parse lexer Outcome) : Parse lexer Outcome := do
  if (← closing).isMatch then return .withData (.list [])
  else return listOutcome (← separatedElements closing separator element (← steps))

theorem delimitedBody_eq (opening closing separator element : Parse lexer Outcome) :
    delimitedBody opening closing separator element = do
      let opened ← opening
      if opened.isMatch then openedBody closing separator element else return opened := by
  unfold delimitedBody openedBody
  refine congrArg (opening >>= ·) (funext fun opened => ?_)
  cases opened.isMatch with
  | false => rfl
  | true =>
    refine congrArg (closing >>= ·) (funext fun closed => ?_)
    split
    · rfl
    · refine congrArg (steps >>= ·) (funext fun fuel => ?_)
      refine congrArg (separatedElements closing separator element fuel >>= ·)
        (funext fun found => ?_)
      simp only [listOutcome]
      split <;> rfl

/-- What the body of a list does, where the segments in it run as they do in a grammar. -/
abbrev listBody (g : Grammar) (opening closing separator element : Segment) : Parse lexer Outcome :=
  (Shape.delimited opening closing separator element).body g (Segment.run g)

section

variable (hu : u.Reachable text) (huv : u.LooksLike v)
include hu huv

theorem listBody_of_opened (closing separator element : Segment) (h : opening.Matches g v o w) :
    ∃ u', u'.Reachable text ∧ Same u' w ∧
      listBody g opening closing separator element u =
        openedBody (closing.run g) (separator.run g) (element.run g) u' := by
  obtain ⟨u', hm, hsame⟩ := h.of_looksLike huv
  refine ⟨u', run_reachable hu hm.1, hsame, ?_⟩
  simp only [listBody, Shape.body, delimitedBody_eq, bind_apply, hm.1, hm.2, if_true]

theorem listBody_of_fails (closing separator element : Segment) (h : opening.Fails g v o) :
    ∃ u', listBody g opening closing separator element u = .ok o u' := by
  obtain ⟨u', hrun, -, -⟩ := h.again hu huv
  refine ⟨u', ?_⟩
  simp only [listBody, Shape.body, delimitedBody_eq, bind_apply, hrun, h.1, Bool.false_eq_true,
    if_false]
  rfl

theorem openedBody_of_fails (h : closing.Fails g v o) :
    ∃ u' fuel, u'.Reachable text ∧ u'.LooksLike v ∧
      openedBody (closing.run g) (separator.run g) (element.run g) u =
        (listLoop g closing separator element fuel >>= fun found => pure (listOutcome found))
          u' := by
  obtain ⟨u', hrun, hu', hlook⟩ := h.again hu huv
  refine ⟨u', u'.unread + 2, hu', hlook, ?_⟩
  simp only [openedBody, bind_apply, hrun, h.1, Bool.false_eq_true, if_false]
  rfl

end

theorem openedBody_of_match (huv : u.LooksLike v) (h : closing.Matches g v o w) :
    ∃ u', openedBody (closing.run g) (separator.run g) (element.run g) u =
      .ok (.withData (.list [])) u' ∧ Same u' w := by
  obtain ⟨u', hm, hsame⟩ := h.of_looksLike huv
  refine ⟨u', ?_, hsame⟩
  simp only [openedBody, bind_apply, hm.1, hm.2, if_true]
  rfl

section

variable (hu : u.Reachable text) (huv : u.LooksLike v)
include hu huv

/-- A body that ends without an error closed its list, or failed at its opening delimiter, or at
the closing one behind an element. -/
theorem listBody_ok (h : listBody g opening closing separator element u = .ok o t) :
    (∃ os w c t', Segment.Closable g opening closing separator element v os w ∧
      closing.Matches g w c t' ∧ o = .withData (.list (collected os)) ∧ Same t t') ∨
    (o.isMatch = false ∧ (opening.Fails g v o ∨
      ∃ os w, os ≠ [] ∧ Segment.Closable g opening closing separator element v os w ∧
        closing.Fails g w o)) := by
  rcases run_cases g opening v with ⟨o₁, v₁, hopening⟩ | ⟨o₁, hopening⟩ | ⟨e, v₁, herror⟩
  · obtain ⟨u₁, hu₁, hsame, hbody⟩ := listBody_of_opened hu huv closing separator element hopening
    have hlook : u₁.LooksLike v₁ := .of_same hsame
    rw [h] at hbody
    rcases run_cases g closing v₁ with ⟨c, v₂, hclosing⟩ | ⟨c, hclosing⟩ | ⟨e, v₂, herror⟩
    · obtain ⟨u₂, hempty, hsame₂⟩ := openedBody_of_match hlook hclosing
      rw [hempty] at hbody
      cases hbody
      exact .inl ⟨[], v₁, c, v₂, .empty hopening, hclosing, rfl, hsame₂⟩
    · obtain ⟨u₂, fuel, hu₂, hlook₂, hloop⟩ := openedBody_of_fails hu₁ hlook hclosing
      obtain ⟨⟨items, closed⟩, t₁, hfound, hpure⟩ := ok_of_bind (hloop.symm.trans hbody.symm)
      cases hpure
      obtain ⟨os, w, t', hlisted, ⟨p, hsep⟩, rfl, hend, hsame'⟩ := listLoop_ok hu₂ hlook₂ hfound
      have hclosable : Segment.Closable g opening closing separator element v os w :=
        .behind hopening hclosing hlisted hsep
      cases hm : closed.isMatch with
      | true =>
        exact .inl ⟨os, w, closed, t', hclosable, ⟨hend, hm⟩, by simp [listOutcome, hm], hsame'⟩
      | false =>
        have houtcome : listOutcome (collected os, closed) = closed := by simp [listOutcome, hm]
        rw [houtcome]
        exact .inr ⟨hm, .inr ⟨os, w, hlisted.ne_nil, hclosable, hm, t', hend⟩⟩
    · obtain ⟨u₂, herror'⟩ := run_error_of_looksLike herror hlook
      rw [openedBody, bind_apply, herror'] at hbody
      cases hbody
  · obtain ⟨u₁, hbody⟩ := listBody_of_fails hu huv closing separator element hopening
    rw [h] at hbody
    cases hbody
    exact .inr ⟨hopening.1, .inl hopening⟩
  · obtain ⟨u₁, herror'⟩ := run_error_of_looksLike herror huv
    rw [listBody, Shape.body, delimitedBody_eq, bind_apply, herror'] at h
    cases h

/-- A list that comes to where its closing delimiter is due ends as that one does. -/
theorem listBody_of_closable {c : Outcome}
    (h : Segment.Closable g opening closing separator element v os w)
    (hclosing : closing.run g w = .ok c t) (hne : os = [] → c.isMatch = true) :
    (∃ t', listBody g opening closing separator element u = .error .endless t') ∨
      ∃ t', listBody g opening closing separator element u =
        .ok (listOutcome (collected os, c)) t' ∧ Same t' t := by
  cases h with
  | empty hopening =>
    obtain ⟨u₁, -, hsame, hbody⟩ := listBody_of_opened hu huv closing separator element hopening
    have hm : c.isMatch = true := hne rfl
    obtain ⟨u₂, hempty, hsame₂⟩ := openedBody_of_match (.of_same hsame) ⟨hclosing, hm⟩
    refine .inr ⟨u₂, hbody.trans (hempty.trans ?_), hsame₂⟩
    simp [listOutcome, hm, collected]
  | behind hopening hfirst hlisted hsep =>
    obtain ⟨u₁, hu₁, hsame, hbody⟩ := listBody_of_opened hu huv closing separator element hopening
    obtain ⟨u₂, fuel, hu₂, hlook₂, hloop⟩ := openedBody_of_fails hu₁ (.of_same hsame) hfirst
    rcases listLoop_of_ended hlisted hsep hclosing hu₂ hlook₂ fuel with
      ⟨t', ht'⟩ | ⟨t', ht', hsame'⟩
    · exact .inl ⟨t', hbody.trans (hloop.trans (by rw [bind_apply, ht']))⟩
    · exact .inr ⟨t', hbody.trans (hloop.trans (by rw [bind_apply, ht']; rfl)), hsame'⟩

/-- A list that wants an element is refused with the report of the one that fails. -/
theorem listBody_of_wanting (h : Segment.Wanting g opening closing separator element v w)
    (ho : element.Fails g w o) :
    (∃ t', listBody g opening closing separator element u = .error .endless t') ∨
      ∃ position message t', listBody g opening closing separator element u =
          .error (.error (.mismatch position message)) t' ∧
        valueOf (Parse.complaint o w) = .ok (.mismatch position message) := by
  have hstop {s s' t : Stream lexer} {fuel : Nat} {e : Stop}
      (hbody : listBody g opening closing separator element u =
        openedBody (closing.run g) (separator.run g) (element.run g) s)
      (hopened : openedBody (closing.run g) (separator.run g) (element.run g) s =
        (listLoop g closing separator element fuel >>= fun found => pure (listOutcome found)) s')
      (hloop : listLoop g closing separator element fuel s' = .error e t) :
      listBody g opening closing separator element u = .error e t :=
    hbody.trans (hopened.trans (by rw [bind_apply, hloop]))
  cases h with
  | first hopening hclosing =>
    obtain ⟨u₁, hu₁, hsame, hbody⟩ := listBody_of_opened hu huv closing separator element hopening
    obtain ⟨u₂, fuel, hu₂, hlook₂, hopened⟩ := openedBody_of_fails hu₁ (.of_same hsame) hclosing
    cases fuel with
    | zero => exact .inl ⟨u₂, hstop hbody hopened rfl⟩
    | succ fuel =>
      obtain ⟨position, message, t', hloop, hvalue⟩ :=
        listLoop_of_fails closing separator fuel hu₂ hlook₂ ho
      exact .inr ⟨position, message, t', hstop hbody hopened hloop, hvalue⟩
  | behind hopening hclosing hlisted hsep =>
    obtain ⟨u₁, hu₁, hsame, hbody⟩ := listBody_of_opened hu huv closing separator element hopening
    obtain ⟨u₂, fuel, hu₂, hlook₂, hopened⟩ := openedBody_of_fails hu₁ (.of_same hsame) hclosing
    rcases listLoop_of_wanting hlisted hsep ho hu₂ hlook₂ fuel with
      ⟨t', hloop⟩ | ⟨position, message, t', hloop, hvalue⟩
    · exact .inl ⟨t', hstop hbody hopened hloop⟩
    · exact .inr ⟨position, message, t', hstop hbody hopened hloop, hvalue⟩

end

/-! ## The list -/

theorem Segment.Closable.opens (h : Segment.Closable g opening closing separator element s os t) :
    ∃ o v, opening.Matches g s o v := by
  cases h with
  | empty ho | behind ho => exact ⟨_, _, ho⟩

theorem Segment.Wanting.opens (h : Segment.Wanting g opening closing separator element s t) :
    ∃ o v, opening.Matches g s o v := by
  cases h with
  | first ho | behind ho => exact ⟨_, _, ho⟩

/-- A delimited list that ends at all matches if and only if its opening delimiter matches, then
either its closing delimiter or elements with separators between them, and behind the last of those,
where no separator is, the closing delimiter. Each begins where the one before it ended, and the
data is the list of the data of the elements. The list fails if and only if its opening delimiter
does, or if behind an element neither the separator nor the closing delimiter matches. Where an
element is due, behind the opening delimiter or behind a separator, its failure is not one of the
list: it is reported as an error. -/
theorem delimited_outcome (hs : s.Reachable text) (g : Grammar)
    (opening closing separator element : Segment)
    (hends : valueOf ((Segment.delimited opening closing separator element).run g s) ≠
      .error .endless) :
    let list := Segment.delimited opening closing separator element
    let inside := s.atDepth (s.depth + 1)
    let closable := Segment.Closable g opening closing separator element inside
    (∀ o t, list.Matches g s o t → ∃ os w c t', closable os w ∧ closing.Matches g w c t' ∧
      o.data? = some (.list (collected os)) ∧ Same t (t'.atDepth s.depth)) ∧
    (∀ os w c t', closable os w → closing.Matches g w c t' → ∃ o t, list.Matches g s o t ∧
      o.data? = some (.list (collected os)) ∧ Same t (t'.atDepth s.depth)) ∧
    ((∃ o, list.Fails g s o) ↔ (∃ o, opening.Fails g inside o) ∨
      ∃ os w c, os ≠ [] ∧ closable os w ∧ closing.Fails g w c) ∧
    ∀ w o, Segment.Wanting g opening closing separator element inside w → element.Fails g w o →
      ∃ position message, valueOf (Parse.complaint o w) = .ok (.mismatch position message) ∧
        valueOf (list.run g s) = .error (.error (.mismatch position message)) := by
  intro list inside closable
  -- A body that runs out of steps is a list that does not end.
  have hsteps {u t : Stream lexer} (hu : list.Begins g s u) :
      list.shape.body g (Segment.run g) u ≠ .error .endless t := fun h => by
    obtain ⟨s', hs'⟩ := run_error_of_begins hu h
    exact hends (congrArg valueOf hs')
  refine ⟨fun o t hmatch => ?_, fun os w c t' hclosable hclosing => ?_, ⟨?_, ?_⟩,
    fun w o hwanting ho => ?_⟩
  · obtain ⟨u, hu⟩ := begins_of_run hmatch.1
    obtain ⟨inner, behind, hbody, hm, hsettled⟩ := run_ok_of_begins hu hmatch.1
    obtain ⟨rfl, span, rfl⟩ := hsettled hmatch.2
    rcases listBody_ok (hu.reachable hs) hu.looksLike hbody with
      ⟨os, w, c, t', hclosable, hclosing, rfl, hsame⟩ | ⟨hfails, -⟩
    · exact ⟨os, w, c, t', hclosable, hclosing, rfl, hsame.cursor, hsame.buffered,
        hsame.lastEnd, rfl⟩
    · rw [hfails, hmatch.2] at hm
      cases hm
  · obtain ⟨o₁, v, hopening⟩ := hclosable.opens
    obtain ⟨u, hu⟩ := begins_of_inside hopening.1 list
    rcases listBody_of_closable (hu.reachable hs) hu.looksLike hclosable hclosing.1
      (fun _ => hclosing.2) with ⟨t₁, ht₁⟩ | ⟨t₁, ht₁, hsame⟩
    · exact absurd ht₁ (hsteps hu)
    · have hlist : listOutcome (collected os, c) = .withData (.list (collected os)) := by
        simp [listOutcome, hclosing.2]
      rw [hlist] at ht₁
      obtain ⟨span, hrun⟩ := run_match_of_begins hu ht₁ rfl
      exact ⟨_, _, ⟨hrun, rfl⟩, rfl, hsame.cursor, hsame.buffered, hsame.lastEnd, rfl⟩
  · rintro ⟨o, hfails, t, hrun⟩
    obtain ⟨u, hu⟩ := begins_of_run hrun
    obtain ⟨inner, behind, hbody, hm, -⟩ := run_ok_of_begins hu hrun
    rcases listBody_ok (hu.reachable hs) hu.looksLike hbody with
      ⟨os, w, c, t', -, -, rfl, -⟩ | ⟨-, hopening | ⟨os, w, hne, hclosable, hclosing⟩⟩
    · rw [hfails] at hm
      cases hm
    · exact .inl ⟨inner, hopening⟩
    · exact .inr ⟨os, w, inner, hne, hclosable, hclosing⟩
  · rintro (⟨o, hopening⟩ | ⟨os, w, c, hne, hclosable, hclosing⟩)
    · obtain ⟨-, t, ht⟩ := id hopening
      obtain ⟨u, hu⟩ := begins_of_inside ht list
      obtain ⟨t₁, ht₁⟩ := listBody_of_fails (hu.reachable hs) hu.looksLike closing separator element
        hopening
      obtain ⟨f, t', -, hrun⟩ := run_failure_of_begins hu ht₁ hopening.1
      exact ⟨_, rfl, t', hrun⟩
    · obtain ⟨o₁, v, hopening⟩ := hclosable.opens
      obtain ⟨u, hu⟩ := begins_of_inside hopening.1 list
      obtain ⟨hm, t, ht⟩ := hclosing
      rcases listBody_of_closable (hu.reachable hs) hu.looksLike hclosable ht
        (fun h => absurd h hne) with ⟨t₁, ht₁⟩ | ⟨t₁, ht₁, -⟩
      · exact absurd ht₁ (hsteps hu)
      · have hlist : listOutcome (collected os, c) = c := by simp [listOutcome, hm]
        rw [hlist] at ht₁
        obtain ⟨f, t', -, hrun⟩ := run_failure_of_begins hu ht₁ hm
        exact ⟨_, rfl, t', hrun⟩
  · obtain ⟨o₁, v, hopening⟩ := hwanting.opens
    obtain ⟨u, hu⟩ := begins_of_inside hopening.1 list
    rcases listBody_of_wanting (hu.reachable hs) hu.looksLike hwanting ho with
      ⟨t₁, ht₁⟩ | ⟨position, message, t₁, ht₁, hvalue⟩
    · exact absurd ht₁ (hsteps hu)
    · obtain ⟨s', hs'⟩ := run_error_of_begins hu ht₁
      exact ⟨position, message, hvalue, congrArg valueOf hs'⟩

theorem ne_endless_of_ranOut {r : EStateM.Result Stop (Stream lexer) Outcome}
    (h : ranOut r = false) : valueOf r ≠ .error .endless := by
  rintro hr
  cases r with
  | ok o s => cases hr
  | error e s => cases hr; cases h

theorem matches_of_isMatch {p : Segment}
    (h : (valueOf (p.run g s)).toOption.map Outcome.isMatch = some true) :
    ∃ o, p.Matches g s o (stateOf (p.run g s)) := by
  obtain ⟨o, t, ht, hm⟩ := exists_of_isMatch h
  exact ⟨o, by rw [ht]; rfl, hm⟩

/-- A list of words in brackets. -/
def wordList : Segment :=
  .delimited (.exact "mark" "(") (.exact "mark" ")") (.exact "mark" ",") (.ofKind "word")

/-- A list of two words matches, a list that is not closed fails, and a list that ends behind a
comma is refused, although its closing bracket stands there. -/
theorem delimited_outcome_wordList :
    let s (text : String) : Stream wordsAndMarks := .ofString text
    let closable := Segment.Closable {} (.exact "mark" "(") (.exact "mark" ")") (.exact "mark" ",")
      (.ofKind "word")
    let wanting := Segment.Wanting {} (.exact "mark" "(") (.exact "mark" ")") (.exact "mark" ",")
      (.ofKind "word")
    (∀ text ∈ ["(a,a)", "(a", "(a,)"], (s text).Reachable text ∧
      valueOf (wordList.run {} (s text)) ≠ .error .endless) ∧
    (∃ o t os w, wordList.Matches {} (s "(a,a)") o t ∧ closable ((s "(a,a)").atDepth 1) os w ∧
      o.data? = some (.list (collected os))) ∧
    (∃ o os w, wordList.Fails {} (s "(a") o ∧ os ≠ [] ∧ closable ((s "(a").atDepth 1) os w) ∧
    ∃ w o position message, wanting ((s "(a,)").atDepth 1) w ∧
      Segment.Fails {} w (.ofKind "word") o ∧
      valueOf (wordList.run {} (s "(a,)")) = .error (.error (.mismatch position message)) := by
  intro s closable wanting
  have hends : ∀ text ∈ ["(a,a)", "(a", "(a,)"], (s text).Reachable text ∧
      valueOf (wordList.run {} (s text)) ≠ .error .endless := by
    intro text htext
    refine ⟨.start, ne_endless_of_ranOut ?_⟩
    revert text
    decide +kernel
  have outcome {text : String} (h : text ∈ ["(a,a)", "(a", "(a,)"]) :=
    delimited_outcome (hends text h).1 {} _ _ _ _ (hends text h).2
  refine ⟨hends, ?_, ?_, ?_⟩
  · obtain ⟨o, hmatch⟩ : ∃ o, wordList.Matches {} (s "(a,a)") o _ :=
      matches_of_isMatch (by decide +kernel)
    obtain ⟨os, w, c, t', hclosable, -, hdata, -⟩ := (outcome (by simp)).1 o _ hmatch
    exact ⟨o, _, os, w, hmatch, hclosable, hdata⟩
  · obtain ⟨o, hfails⟩ : ∃ o, wordList.Fails {} (s "(a") o := fails_of_isMatch (by decide +kernel)
    have hopens : ¬ ∃ o, Segment.Fails {} ((s "(a").atDepth 1) (.exact "mark" "(") o := by
      obtain ⟨o, hopens, hm⟩ := matches_of_isMatch (p := .exact "mark" "(") (g := {})
        (s := (s "(a").atDepth 1) (by decide +kernel)
      rintro ⟨o', hm', t, ht⟩
      rw [hopens] at ht
      cases ht
      rw [hm] at hm'
      cases hm'
    rcases (outcome (by simp)).2.2.1.1 ⟨o, hfails⟩ with hopening | ⟨os, w, c, hne, hclosable, -⟩
    · exact absurd hopening hopens
    · exact ⟨o, os, w, hfails, hne, hclosable⟩
  · let inside := (s "(a,)").atDepth 1
    let opened := stateOf ((Segment.exact "mark" "(").run {} inside)
    let behind := stateOf ((Segment.ofKind "word").run {} opened)
    let wanted := stateOf ((Segment.exact "mark" ",").run {} behind)
    obtain ⟨o₁, hopening⟩ : ∃ o, (Segment.exact "mark" "(").Matches {} inside o opened :=
      matches_of_isMatch (by decide +kernel)
    obtain ⟨c, hclosing⟩ : ∃ o, Segment.Fails {} opened (.exact "mark" ")") o :=
      fails_of_isMatch (by decide +kernel)
    obtain ⟨o₂, helement⟩ : ∃ o, (Segment.ofKind "word").Matches {} opened o behind :=
      matches_of_isMatch (by decide +kernel)
    obtain ⟨p, hseparator⟩ : ∃ o, (Segment.exact "mark" ",").Matches {} behind o wanted :=
      matches_of_isMatch (by decide +kernel)
    obtain ⟨o, hfails⟩ : ∃ o, Segment.Fails {} wanted (.ofKind "word") o :=
      fails_of_isMatch (by decide +kernel)
    have hwanting : wanting inside wanted := .behind hopening hclosing (.one helement) hseparator
    obtain ⟨position, message, -, hrefused⟩ := (outcome (by simp)).2.2.2 wanted o hwanting hfails
    exact ⟨wanted, o, position, message, hwanting, hfails, hrefused⟩

end Descent
