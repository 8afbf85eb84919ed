import ReversePolish.Nesting

/-! The points at which an operand may split: for each operator, loosest first, the exposed positions
still ahead. A search only ever drops positions from the front, so walking along a chain passes each of
them once. -/
namespace ReversePolish

/-- The positions still ahead, by operator. -/
abbrev Splits := List (Operator × List Nat)

namespace Splits

def ofText (s : Text) : Splits :=
  let exposed := Nesting.exposed s
  Operator.splitOrder.map fun op =>
    (op, exposed.filterMap fun hit => if hit.2 = op then some hit.1 else none)

/-- The first position after `lead` of the loosest operator that has one. What lies at or before `lead`
is dropped from the operators that were asked. -/
def next (lead : Nat) : Splits → Option (Nat × Operator) × Splits
  | [] => (none, [])
  | (op, ahead) :: tighter =>
    match ahead.dropWhile (· ≤ lead) with
    | position :: later => (some (position, op), (op, position :: later) :: tighter)
    | [] =>
      match next lead tighter with
      | (found, tighter') => (found, (op, []) :: tighter')

theorem next_cons_of_dropWhile {lead position : Nat} {op : Operator} {ahead later : List Nat}
    (h : ahead.dropWhile (· ≤ lead) = position :: later) (tighter : Splits) :
    next lead ((op, ahead) :: tighter) = (some (position, op), (op, position :: later) :: tighter) := by
  rw [next, h]

theorem next_cons_of_passed {lead : Nat} {op : Operator} {ahead : List Nat}
    (h : ahead.dropWhile (· ≤ lead) = []) (tighter : Splits) :
    next lead ((op, ahead) :: tighter) = ((next lead tighter).1, (op, []) :: (next lead tighter).2) := by
  rw [next, h]

theorem exists_of_next {lead position : Nat} {op : Operator} {splits ahead : Splits}
    (h : splits.next lead = (some (position, op), ahead)) :
    lead < position ∧ ∃ positions, (op, positions) ∈ splits ∧ position ∈ positions := by
  induction splits generalizing ahead with
  | nil => cases h
  | cons entry tighter ih =>
    obtain ⟨f, positions⟩ := entry
    cases hdrop : positions.dropWhile (· ≤ lead) with
    | nil =>
      rw [next_cons_of_passed hdrop, Prod.mk.injEq] at h
      obtain ⟨hlead, found, hmem, hposition⟩ := ih (Prod.ext h.1 rfl)
      exact ⟨hlead, found, List.mem_cons_of_mem _ hmem, hposition⟩
    | cons i later =>
      rw [next_cons_of_dropWhile hdrop] at h
      cases h
      have hnot := List.head?_dropWhile_not (· ≤ lead) positions
      rw [hdrop] at hnot
      have hmem : position ∈ positions := by
        apply (List.dropWhile_sublist (· ≤ lead)).subset
        rw [hdrop]
        exact List.mem_cons_self
      exact ⟨by simpa using hnot, positions, List.mem_cons_self, hmem⟩

theorem exists_of_mem_next {lead : Nat} {splits : Splits} {op : Operator} {ahead : List Nat}
    (h : (op, ahead) ∈ (splits.next lead).2) :
    ∃ positions, (op, positions) ∈ splits ∧ ahead ⊆ positions := by
  induction splits with
  | nil => cases h
  | cons entry tighter ih =>
    obtain ⟨f, positions⟩ := entry
    cases hdrop : positions.dropWhile (· ≤ lead) with
    | nil =>
      rw [next_cons_of_passed hdrop] at h
      rcases List.mem_cons.1 h with heq | hmem
      · cases heq
        exact ⟨positions, List.mem_cons_self, List.nil_subset _⟩
      · obtain ⟨found, hmem, hsubset⟩ := ih hmem
        exact ⟨found, List.mem_cons_of_mem _ hmem, hsubset⟩
    | cons i later =>
      rw [next_cons_of_dropWhile hdrop, ← hdrop] at h
      rcases List.mem_cons.1 h with heq | hmem
      · cases heq
        exact ⟨positions, List.mem_cons_self, (List.dropWhile_sublist _).subset⟩
      · exact ⟨ahead, List.mem_cons_of_mem _ hmem, List.Subset.refl _⟩

end Splits
end ReversePolish
