import Descent.Proofs.Backtracking
import Descent.Proofs.Tokens

/-!
# A stream as an index into its tokens

Over a text that its lexer reads without an error, a stream shows no more than a place in the list
of the text's tokens: how far it has looked ahead, and where its cursor stands meanwhile, can not be
told from its answers. This holds of queries in any order, and of returns to any checkpoints that
were saved among them.

* `Tracks.ask`: a query gives the answer that the list gives, and moves on as the index does.
* `Session.Follows.step`: one request, with the checkpoints that were saved before.
* `answers_of_tokenize`: every row of requests.
-/
namespace Descent

open Descent.Stream

/-! ## Requests -/

/-- A query to a stream, or what else can be done with it. The checkpoint that was saved last is in
slot `0`; to a slot that holds none there is no return. -/
inductive Request where
  | ask (q : Query)
  | save
  | restore (slot : Nat)

/-- A stream and the checkpoints that were saved on it, the latest first. -/
structure Session (lexer : Lexer) where
  stream : Stream lexer
  saved : List Checkpoint := []

/-- A place in a list of tokens and the places that were saved, the latest first. -/
structure Pointer where
  index : Nat := 0
  saved : List Nat := []

namespace Session

variable {lexer : Lexer}

def step (s : Session lexer) : Request → Option Answer × Session lexer
  | .ask q => (some (q.ask s.stream).1, { s with stream := (q.ask s.stream).2 })
  | .save => (none, { s with saved := s.stream.checkpoint :: s.saved })
  | .restore slot =>
    match s.saved[slot]? with
    | some c => (none, { s with stream := s.stream.returnTo c })
    | none => (none, s)

/-- What requests that are made in a row are answered. -/
def answers (s : Session lexer) : List Request → List (Option Answer)
  | [] => []
  | r :: rs => (s.step r).1 :: answers (s.step r).2 rs

end Session

namespace Pointer

/-- The end of the token before a place, and the start of the text if there is none. -/
def endBefore (tokens : List Token) : Nat → Position
  | 0 => .start
  | i + 1 => tokens[i]?.elim .start (·.span.stop)

/-- What a list of tokens answers at a place; `finish` is the end of the text. -/
def answer (tokens : List Token) (finish : Position) (i : Nat) : Query → Answer
  | .peek | .next => .token (.ok tokens[i]?)
  | .atEnd => .ended (.ok (decide (i = tokens.length)))
  | .position => .position (.ok (tokens[i]?.elim finish Token.start))
  | .lastEnd => .position (.ok (endBefore tokens i))
  | .depth => .depth 0

/-- The place behind a query: only `next` goes on, and not beyond the end. -/
def after (tokens : List Token) (i : Nat) : Query → Nat
  | .next => min (i + 1) tokens.length
  | _ => i

def step (tokens : List Token) (finish : Position) (p : Pointer) :
    Request → Option Answer × Pointer
  | .ask q => (some (answer tokens finish p.index q), { p with index := after tokens p.index q })
  | .save => (none, { p with saved := p.index :: p.saved })
  | .restore slot =>
    match p.saved[slot]? with
    | some i => (none, { p with index := i })
    | none => (none, p)

def answers (tokens : List Token) (finish : Position) (p : Pointer) :
    List Request → List (Option Answer)
  | [] => []
  | r :: rs => (p.step tokens finish r).1 :: answers tokens finish (p.step tokens finish r).2 rs

end Pointer

/-! ## The end of the text -/

namespace Tokenized

variable {x : Tokenized} {k : Nat}

/-- Where the text ends. -/
def finish (x : Tokenized) : Position := Position.start.after x.text.toList

/-- The places at and behind the end of the last token are one to the index. -/
def index (x : Tokenized) (k : Nat) : Nat := min k x.count

theorem index_of_le (h : k ≤ x.count) : x.index k = k := Nat.min_eq_left h

theorem index_of_ge (h : x.count ≤ k) : x.index k = x.count := Nat.min_eq_right h

theorem index_seen : x.index (x.seen k) = x.index k := by
  unfold index seen; split <;> omega

theorem getElem?_index : x.tokens[x.index k]? = x.tokens[k]? := by
  rcases Nat.le_total k x.count with h | h
  · rw [index_of_le h]
  · rw [index_of_ge h, List.getElem?_eq_none h, List.getElem?_eq_none (Nat.le_refl x.count)]

theorem position_place_finish (h : x.count < k) : (x.place k).position = x.finish := by
  have hnone : x.lexer.found (x.lexer.place x.text x.count) = .ok none := by
    rw [x.found, List.getElem?_eq_none (Nat.le_refl x.count)]
  have hend : (x.place (x.count + 1)).atEnd = true := x.lexer.atEnd_pass hnone
  rw [place_of_count_lt h, (sound_place _).position_of_atEnd hend, text_place, finish]

/-- Behind its last token a stream holds none, so that its cursor is where it stands. -/
theorem cursor_of_count_le {s : Stream x.lexer} (h : s.StandsAt (x.place k)) (hk : x.count ≤ k) :
    s.cursor = x.place k := by
  unfold StandsAt at h
  split at h
  · exact h
  · have hf := h.2.1
    rw [place, x.found, List.getElem?_eq_none hk] at hf
    cases hf

end Tokenized

/-! ## One query -/

/-- A stream outside of all segments stands at a place, behind the token before it. -/
structure Tracks (x : Tokenized) (k : Nat) (s : Stream x.lexer) : Prop where
  stands : s.StandsAt (x.place k)
  lastEnd : s.lastEnd = Pointer.endBefore x.tokens (x.index k)
  depth : s.depth = 0

section

variable {x : Tokenized} {k : Nat} {s : Stream x.lexer}

theorem Tracks.peek (h : Tracks x k s) :
    ∃ s', s.peek = .ok x.tokens[k]? s' ∧ Tracks x (x.seen k) s' := by
  obtain ⟨s', hp, hs⟩ := Tokenized.peek_at h.stands
  have hframe := peek_frame s
  rw [hp] at hframe
  exact ⟨s', hp, hs, by rw [Tokenized.index_seen, ← h.lastEnd]; exact hframe.1,
    hframe.2.trans h.depth⟩

/-- The end of a token that is handed out is kept. -/
theorem lastEnd_handOut {lexer : Lexer} {s s' : Stream lexer} {found : Option Token}
    (h : s.peek = .ok found s') : s'.handOut.lastEnd = found.elim s.lastEnd (·.span.stop) := by
  unfold Stream.peek at h
  split at h
  · next b hb =>
    cases h
    simp [handOut, hb]
  · next hb =>
    split at h <;> cases h
    · simp [handOut, hb]
    · rfl
    · rfl

theorem Tracks.next (h : Tracks x k s) :
    ∃ s' j, s.next = .ok x.tokens[k]? s' ∧ Tracks x j s' ∧
      x.index j = min (x.index k + 1) x.count := by
  have hstand := standsAt_next h.stands
  obtain ⟨s', hp, hs⟩ := h.peek
  have hlast := lastEnd_handOut hp
  have hd : s'.handOut.depth = 0 := (depth_handOut s').trans hs.depth
  rw [next_eq, hp] at hstand ⊢
  refine ⟨s'.handOut, k + 1, rfl, ⟨hstand, hlast.trans ?_, hd⟩, ?_⟩
  · by_cases hk : k < x.count
    · rw [Tokenized.index_of_le hk, Pointer.endBefore, List.getElem?_eq_getElem hk]
      rfl
    · have hle : x.count ≤ k := by omega
      rw [List.getElem?_eq_none hle, Tokenized.index_of_ge (by omega), h.lastEnd,
        Tokenized.index_of_ge hle]
      rfl
  · unfold Tokenized.index
    omega

theorem Tracks.position (h : Tracks x k s) :
    ∃ s', s.position = .ok (x.tokens[k]?.elim x.finish Token.start) s' ∧
      Tracks x (x.seen k) s' := by
  obtain ⟨s', hp, hs⟩ := h.peek
  rw [position_eq, hp]
  by_cases hk : k < x.count
  · rw [List.getElem?_eq_getElem hk]
    exact ⟨s', rfl, hs⟩
  · have hle : x.count ≤ k := by omega
    have hseen : x.seen k = x.count + 1 := if_neg hk
    have hcursor : s'.cursor = x.place (x.seen k) :=
      Tokenized.cursor_of_count_le hs.stands (by omega)
    rw [List.getElem?_eq_none hle]
    refine ⟨s', ?_, hs⟩
    simp only [hcursor, Option.elim_none]
    rw [hseen, Tokenized.position_place_finish (Nat.lt_succ_self _)]

/-- A query gives the answer of the list of tokens, and leads to where the index goes. -/
theorem Tracks.ask (h : Tracks x k s) (q : Query) :
    (q.ask s).1 = Pointer.answer x.tokens x.finish (x.index k) q ∧
      ∃ j, Tracks x j (q.ask s).2 ∧ x.index j = Pointer.after x.tokens (x.index k) q := by
  cases q with
  | peek =>
    obtain ⟨s', hp, hs⟩ := h.peek
    simp only [Query.ask, hp, Pointer.answer, Tokenized.getElem?_index]
    exact ⟨rfl, _, hs, Tokenized.index_seen⟩
  | next =>
    obtain ⟨s', j, hn, hs, hj⟩ := h.next
    simp only [Query.ask, hn, Pointer.answer, Tokenized.getElem?_index]
    exact ⟨rfl, j, hs, hj⟩
  | atEnd =>
    obtain ⟨s', hp, hs⟩ := h.peek
    have hend : x.tokens[k]?.isNone = decide (x.index k = x.tokens.length) := by
      rw [← Tokenized.getElem?_index, Bool.eq_iff_iff, Option.isNone_iff_eq_none,
        List.getElem?_eq_none_iff, decide_eq_true_iff]
      have hle : x.index k ≤ x.tokens.length := Nat.min_le_right _ _
      omega
    simp only [Query.ask, atEnd_eq, hp, Pointer.answer, ← hend]
    exact ⟨rfl, _, hs, Tokenized.index_seen⟩
  | position =>
    obtain ⟨s', hp, hs⟩ := h.position
    simp only [Query.ask, hp, Pointer.answer, Tokenized.getElem?_index]
    exact ⟨rfl, _, hs, Tokenized.index_seen⟩
  | lastEnd => exact ⟨congrArg (Answer.position ∘ Except.ok) h.lastEnd, k, h, rfl⟩
  | depth => exact ⟨congrArg Answer.depth h.depth, k, h, rfl⟩

/-- A return leads to where the checkpoint was saved. -/
theorem Tracks.returnTo {j : Nat} {t : Stream x.lexer} (h : Tracks x k s) (ht : Tracks x j t) :
    Tracks x j (s.returnTo t.checkpoint) :=
  ⟨Tokenized.returnTo_at ht.stands h.stands, ht.lastEnd, h.depth⟩

end

/-! ## Rows of requests -/

/-- The stream is at the index of the pointer, and the checkpoints were saved where the pointer's
places were. -/
structure Session.Follows {x : Tokenized} (s : Session x.lexer) (p : Pointer) : Prop where
  stream : ∃ k, Tracks x k s.stream ∧ x.index k = p.index
  saved : ∀ slot : Nat, (s.saved[slot]? = none ∧ p.saved[slot]? = none) ∨
    ∃ k t, Tracks x k t ∧ s.saved[slot]? = some t.checkpoint ∧ p.saved[slot]? = some (x.index k)

section

variable {x : Tokenized} {s : Session x.lexer} {p : Pointer}

/-- A request is answered alike, and leaves the session with the pointer. -/
theorem Session.Follows.step (h : s.Follows p) (r : Request) :
    (s.step r).1 = (p.step x.tokens x.finish r).1 ∧
      (s.step r).2.Follows (p.step x.tokens x.finish r).2 := by
  obtain ⟨k, hk, hindex⟩ := h.stream
  cases r with
  | ask q =>
    obtain ⟨hanswer, j, hj, hafter⟩ := hk.ask q
    rw [hindex] at hanswer hafter
    exact ⟨congrArg some hanswer, ⟨j, hj, hafter⟩, h.saved⟩
  | save =>
    refine ⟨rfl, ⟨k, hk, hindex⟩, fun slot => ?_⟩
    cases slot with
    | zero => exact Or.inr ⟨k, s.stream, hk, rfl, congrArg some hindex.symm⟩
    | succ slot => exact h.saved slot
  | restore slot =>
    simp only [Session.step, Pointer.step]
    rcases h.saved slot with ⟨hs, hp⟩ | ⟨j, t, ht, hs, hp⟩ <;> rw [hs, hp]
    · exact ⟨rfl, h⟩
    · exact ⟨rfl, ⟨j, hk.returnTo ht, rfl⟩, h.saved⟩

theorem Session.Follows.answers_eq (h : s.Follows p) (requests : List Request) :
    s.answers requests = p.answers x.tokens x.finish requests := by
  induction requests generalizing s p with
  | nil => rfl
  | cons r rs ih =>
    obtain ⟨hanswer, hstep⟩ := h.step r
    rw [Session.answers, Pointer.answers, hanswer, ih hstep]

end

/-- A stream over a text that is read without an error answers every row of requests as an index
into the list of the text's tokens does. -/
theorem answers_of_tokenize {lexer : Lexer} {text : String} {tokens : List Token}
    (h : lexer.tokenize text = .ok tokens) (requests : List Request) :
    Session.answers ⟨(Stream.ofString text : Stream lexer), []⟩ requests =
      Pointer.answers tokens (Position.start.after text.toList) {} requests := by
  have hstart : Session.Follows (x := .ofTokenize h) ⟨Stream.ofString text, []⟩ {} :=
    ⟨⟨0, ⟨standsAt_ofString text, rfl, rfl⟩, Nat.zero_min _⟩, fun _ => Or.inl ⟨rfl, rfl⟩⟩
  exact hstart.answers_eq requests

/-- The last word of a text is handed out a second time after a return, and then the text is at its
end, behind the blank. -/
theorem answers_of_tokenize_twice :
    ∃ tokens, wordsAndBlanks.tokenize " a a " = .ok tokens ∧
      Session.answers ⟨(Stream.ofString " a a " : Stream wordsAndBlanks), []⟩
          [.ask .next, .ask .peek, .save, .ask .next, .ask .atEnd, .restore 0, .ask .next,
            .ask .position, .ask .lastEnd] =
        Pointer.answers tokens ⟨5, 1, 6⟩ {}
          [.ask .next, .ask .peek, .save, .ask .next, .ask .atEnd, .restore 0, .ask .next,
            .ask .position, .ask .lastEnd] :=
  ⟨_, rfl, answers_of_tokenize rfl _⟩

end Descent
