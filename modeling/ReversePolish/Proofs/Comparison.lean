import ReversePolish.Proofs.Traversal
import ReversePolish.Tree.Equality

/-! How two trees are compared. Every turn of the loop takes one place off the trees on the left of its pairs, also when
it puts two pairs in the place of one, so the loop ends; and it leaves pairs that agree exactly if those before the turn
do. -/
namespace ReversePolish
namespace Tree

/-- One turn of the comparison: the answer, or the pairs that are then to be compared. -/
def compareFirst : List (Tree × Tree) → Bool ⊕ List (Tree × Tree)
  | [] => .inl true
  | (leaf a, leaf b) :: pairs => if a = b then .inr pairs else .inl false
  | (node f a b, node g c d) :: pairs => if f = g then .inr ((a, c) :: (b, d) :: pairs) else .inl false
  | _ :: _ => .inl false

/-- From these pairs on the loop comes to this answer, after so many turns that give none. -/
inductive Compares : Nat → List (Tree × Tree) → Bool → Prop
  | answer {pairs : List (Tree × Tree)} {equal : Bool} (hturn : compareFirst pairs = .inl equal) :
    Compares 0 pairs equal
  | turn {turns : Nat} {pairs next : List (Tree × Tree)} {equal : Bool}
    (hturn : compareFirst pairs = .inr next) (hnext : Compares turns next equal) :
    Compares (turns + 1) pairs equal

theorem agree_eq (pairs : List (Tree × Tree)) : agree pairs = (compareFirst pairs).elim id agree := by
  fun_cases compareFirst pairs with
  | case1 => simp [agree]
  | case2 a pairs => simp [agree]
  | case3 a b pairs hne => simp [agree, hne]
  | case4 a b f c d pairs =>
    rw [agree, beq_self_eq_true, Bool.true_and]
    rfl
  | case5 f a b g c d pairs hne =>
    rw [agree, beq_false_of_ne hne, Bool.false_and]
    rfl
  | case6 pair pairs hleaf hnode =>
    rw [agree]
    · rfl
    · exact hleaf
    · exact hnode

theorem compareFirst_cases {pairs next : List (Tree × Tree)} (h : compareFirst pairs = .inr next) :
    (∃ text, pairs = (leaf text, leaf text) :: next) ∨
      ∃ op a b c d rest, pairs = (node op a b, node op c d) :: rest ∧
        next = (a, c) :: (b, d) :: rest := by
  fun_cases compareFirst pairs with
  | case1 => cases h
  | case2 text pairs =>
    rw [compareFirst, if_pos rfl, Sum.inr.injEq] at h
    exact .inl ⟨text, by rw [h]⟩
  | case3 a b pairs hne =>
    rw [compareFirst, if_neg hne] at h
    cases h
  | case4 a b op c d pairs =>
    rw [compareFirst, if_pos rfl, Sum.inr.injEq] at h
    exact .inr ⟨op, a, b, c, d, pairs, rfl, h.symm⟩
  | case5 f a b g c d pairs hne =>
    rw [compareFirst, if_neg hne] at h
    cases h
  | case6 pair pairs hleaf hnode =>
    rw [compareFirst] at h
    · cases h
    · exact hleaf
    · exact hnode

theorem leftSize_of_compareFirst {pairs next : List (Tree × Tree)} (h : compareFirst pairs = .inr next) :
    leftSize next + 1 = leftSize pairs := by
  rcases compareFirst_cases h with ⟨text, rfl⟩ | ⟨op, a, b, c, d, rest, rfl, rfl⟩
  · simp only [leftSize, size]
    omega
  · simp only [leftSize, size]
    omega

theorem exists_compares (pairs : List (Tree × Tree)) :
    ∃ turns ≤ leftSize pairs, Compares turns pairs (agree pairs) := by
  rcases hturn : compareFirst pairs with equal | next
  · have hagree := agree_eq pairs
    rw [hturn] at hagree
    exact ⟨0, Nat.zero_le _, .answer (hagree ▸ hturn)⟩
  · have hagree := agree_eq pairs
    rw [hturn] at hagree
    have hshorter := leftSize_of_compareFirst hturn
    obtain ⟨turns, hle, hcompares⟩ := exists_compares next
    exact ⟨turns + 1, by omega, .turn hturn (hagree ▸ hcompares)⟩
termination_by leftSize pairs
decreasing_by omega

/-- What stands at the root: the operator of a node or the text of a leaf. A leaf may hold the symbol of an operator,
which is then a text. -/
def root : Tree → Operator ⊕ Text
  | leaf text => .inr text
  | node op _ _ => .inl op

theorem eq_of_places {a b : Tree} (h : ∀ path, (a.at? path).map root = (b.at? path).map root) : a = b := by
  induction a generalizing b with
  | leaf text =>
    have hroot := h []
    cases b with
    | leaf text' => simpa [root] using hroot
    | node op lhs rhs => simp [root] at hroot
  | node op lhs rhs ihlhs ihrhs =>
    have hroot := h []
    cases b with
    | leaf text => simp [root] at hroot
    | node op' lhs' rhs' =>
      have hop : op = op' := by simpa [root] using hroot
      rw [hop, ihlhs fun path => h (.left :: path), ihrhs fun path => h (.right :: path)]

/-- The comparison of two trees ends, after no more turns than there are places in the first. It says yes exactly if
the two have the same places, with the same operator at every node and the same text at every leaf; so a leaf that
holds the symbol of an operator is not the same as a node. -/
theorem same_iff_places (a b : Tree) :
    (∃ turns ≤ a.size, Compares turns [(a, b)] (a.same b)) ∧
      (a.same b = true ↔ ∀ path, (a.at? path).map root = (b.at? path).map root) ∧
      (a.same b = true ↔ a = b) ∧
      ∀ op lhs rhs, same (leaf [Operator.symbol op]) (node op lhs rhs) = false := by
  refine ⟨exists_compares [(a, b)], ?_, same_iff, fun op lhs rhs => ?_⟩
  · rw [same_iff]
    exact ⟨fun h path => by rw [h], eq_of_places⟩
  · rw [Bool.eq_false_iff, ne_eq, same_iff]
    exact nofun

end Tree
end ReversePolish
