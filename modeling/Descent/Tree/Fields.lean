/-!
# Fields

Named values, kept as a list of pairs in the order of their names, with each name once.

* `lookup_insert_self`, `lookup_insert_of_ne`: what an insertion changes.
* `insert_sorted`: insertion keeps the order.
* `foldl_insert_of_sorted`: fields in order are taken over as they are.
-/
namespace Descent

/-- Named values; the functions below keep the names in order. -/
abbrev Fields (α : Type) := List (String × α)

namespace Fields

variable {α : Type}

/-- Sets the value of a name. -/
def insert (name : String) (value : α) : Fields α → Fields α
  | [] => [(name, value)]
  | (n, v) :: rest =>
    if name = n then (name, value) :: rest
    else if name < n then (name, value) :: (n, v) :: rest
    else (n, v) :: insert name value rest

theorem lookup_insert_self (name : String) (value : α) (fields : Fields α) :
    (insert name value fields).lookup name = some value := by
  induction fields with
  | nil => simp [insert]
  | cons p rest ih =>
    obtain ⟨n, v⟩ := p
    unfold insert
    split
    · exact List.lookup_cons_self
    · next h =>
      split
      · exact List.lookup_cons_self
      · simp only [List.lookup_cons, beq_false_of_ne h, ih]

theorem lookup_insert_of_ne {name other : String} (h : other ≠ name) (value : α)
    (fields : Fields α) : (insert name value fields).lookup other = fields.lookup other := by
  induction fields with
  | nil => simp [insert, List.lookup_cons, beq_false_of_ne h]
  | cons p rest ih =>
    obtain ⟨n, v⟩ := p
    unfold insert
    split
    · next hn => subst hn; simp [List.lookup_cons, beq_false_of_ne h]
    · split
      · simp [List.lookup_cons, beq_false_of_ne h]
      · simp only [List.lookup_cons, ih]

/-- The names are in order, each once. -/
def Sorted (fields : Fields α) : Prop := fields.Pairwise fun p q => p.1 < q.1

theorem mem_insert {name : String} {value : α} {fields : Fields α} {p : String × α}
    (h : p ∈ insert name value fields) : p = (name, value) ∨ p ∈ fields := by
  induction fields with
  | nil => exact Or.inl (List.mem_singleton.1 h)
  | cons q rest ih =>
    obtain ⟨n, v⟩ := q
    unfold insert at h
    split at h
    · rcases List.mem_cons.1 h with h | h
      · exact Or.inl h
      · exact Or.inr (List.mem_cons_of_mem _ h)
    · split at h
      · exact List.mem_cons.1 h
      · rcases List.mem_cons.1 h with h | h
        · exact Or.inr (h ▸ List.mem_cons_self)
        · exact (ih h).imp_right (List.mem_cons_of_mem _)

theorem insert_sorted {name : String} {value : α} {fields : Fields α} (h : Sorted fields) :
    Sorted (insert name value fields) := by
  induction fields with
  | nil => exact List.pairwise_singleton ..
  | cons q rest ih =>
    obtain ⟨n, v⟩ := q
    have ⟨hn, hr⟩ := List.pairwise_cons.1 h
    unfold insert
    split
    · next he => exact List.pairwise_cons.2 ⟨fun p hp => he ▸ hn p hp, hr⟩
    · next he =>
      split
      · next hlt =>
        refine List.pairwise_cons.2 ⟨fun p hp => ?_, h⟩
        rcases List.mem_cons.1 hp with rfl | hp
        · exact hlt
        · exact String.lt_trans hlt (hn p hp)
      · next hlt =>
        refine List.pairwise_cons.2 ⟨fun p hp => ?_, ih hr⟩
        rcases mem_insert hp with rfl | hp
        · exact Std.lt_of_le_of_ne (Std.not_lt.1 hlt) (Ne.symm he)
        · exact hn p hp

/-- A name behind all others is put last. -/
theorem insert_of_lt {name : String} {fields : Fields α} (h : ∀ p ∈ fields, p.1 < name)
    (value : α) : insert name value fields = fields ++ [(name, value)] := by
  induction fields with
  | nil => rfl
  | cons q rest ih =>
    obtain ⟨n, v⟩ := q
    have ⟨hn, hrest⟩ := List.forall_mem_cons.1 h
    rw [insert, if_neg (Std.ne_of_lt hn).symm, if_neg (String.lt_asymm hn), ih hrest]
    rfl

/-- Fields in order are taken over as they are. -/
theorem foldl_insert_of_sorted {fields more : Fields α} (h : Sorted (fields ++ more)) :
    more.foldl (fun fs (name, v) => insert name v fs) fields = fields ++ more := by
  induction more generalizing fields with
  | nil => rw [List.foldl_nil, List.append_nil]
  | cons p more ih =>
    obtain ⟨name, v⟩ := p
    have hlt : ∀ q ∈ fields, q.1 < name := fun q hq =>
      (List.pairwise_append.1 h).2.2 q hq (name, v) List.mem_cons_self
    simp only [List.foldl_cons, insert_of_lt hlt]
    rw [ih (by rwa [List.append_assoc]), List.append_assoc]
    rfl

theorem foldl_insert_sorted {fields more : Fields α} (h : Sorted fields) :
    Sorted (more.foldl (fun fs (name, v) => insert name v fs) fields) := by
  induction more generalizing fields with
  | nil => exact h
  | cons p more ih => exact ih (insert_sorted h)

end Fields

end Descent
