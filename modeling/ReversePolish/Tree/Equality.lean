import ReversePolish.Tree

/-! Equality of trees, decided by a loop over the pairs still to be compared. Two trees are equal if
they have one shape, the same operators and the same texts. -/
namespace ReversePolish
namespace Tree

def leftSize : List (Tree × Tree) → Nat
  | [] => 0
  | pair :: pairs => pair.1.size + leftSize pairs

def agree : List (Tree × Tree) → Bool
  | [] => true
  | (leaf a, leaf b) :: pairs => a == b && agree pairs
  | (node f a b, node g c d) :: pairs => f == g && agree ((a, c) :: (b, d) :: pairs)
  | _ :: _ => false
termination_by pairs => leftSize pairs
decreasing_by all_goals simp only [leftSize, size]; omega

def same (a b : Tree) : Bool := agree [(a, b)]

theorem agree_iff (pairs : List (Tree × Tree)) :
    agree pairs = true ↔ ∀ pair ∈ pairs, pair.1 = pair.2 := by
  fun_induction agree pairs with
  | case1 => simp
  | case2 a b pairs ih => simp [ih]
  | case3 f a b g c d pairs ih =>
    simp only [Bool.and_eq_true, beq_iff_eq, ih, List.forall_mem_cons, node.injEq, and_assoc]
  | case4 pair pairs hleaf hnode =>
    obtain ⟨a | ⟨f, a, b⟩, c | ⟨g, c, d⟩⟩ := pair
    · exact absurd rfl (hleaf a c)
    · simp
    · simp
    · exact absurd rfl (hnode f a b g c d)

theorem same_iff {a b : Tree} : a.same b = true ↔ a = b := by
  simp [same, agree_iff]

instance : DecidableEq Tree := fun a b =>
  decidable_of_iff (same a b = true) (by simp [same, agree_iff])

end Tree
end ReversePolish
