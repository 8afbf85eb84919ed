import ReversePolish.Proofs.Failure

/-! The order in which operators stand in a tree. What a split leaves to its left operand is tighter than its own
operator, and what it leaves to its right operand is not looser. A sign before an operand is no exception. -/
namespace ReversePolish
namespace Tree

def operators : Tree → List Operator
  | leaf _ => []
  | node op lhs rhs => op :: (lhs.operators ++ rhs.operators)

/-- At every node the operators of the left operand come later in the split order, and those of the right operand
come later or are the same. -/
inductive Ordered : Tree → Prop
  | leaf (text : Text) : Ordered (leaf text)
  | node {op : Operator} {lhs rhs : Tree} (hlhs : Ordered lhs) (hrhs : Ordered rhs)
    (hleft : ∀ f ∈ lhs.operators, op.rank < f.rank) (hright : ∀ f ∈ rhs.operators, op.rank ≤ f.rank) :
    Ordered (node op lhs rhs)

end Tree

namespace Parse

open Nesting (level shift exposes firstAfter?)

theorem bare_of_shift {s : Text} (h : ∀ c ∈ s, shift c = 0) : bare s = s.trim := by
  refine bare_of_not_inside (Nesting.inside?_eq_none_of_head fun hopen => ?_)
  have hshift := h '(' ((Text.infix_trim s).subset (List.mem_of_mem_head? hopen))
  cases hshift

theorem exists_exposes_of_bare {s : Text} (h : ∀ c ∈ s, shift c = 0) {op : Operator} {i : Nat}
    (hexp : exposes (bare s) op i = true) : ∃ j, i ≤ j ∧ exposes s op j = true := by
  rw [bare_of_shift h] at hexp
  exact Nesting.exists_exposes_of_trim hexp

theorem shift_operands {s x y : Text} {op : Operator} (h : ∀ c ∈ s, shift c = 0)
    (hbare : bare s = x ++ op.symbol :: y) :
    (∀ c ∈ x, shift c = 0) ∧ ∀ c ∈ y, shift c = 0 := by
  have hsub := (infix_bare s).subset
  rw [hbare] at hsub
  exact ⟨fun c hc => h c (hsub (by simp [hc])), fun c hc => h c (hsub (by simp [hc]))⟩

theorem Reads.exposes_of_mem {s : Text} {t : Tree} (h : Reads s t) (hs : ∀ c ∈ s, shift c = 0)
    {f : Operator} (hf : f ∈ t.operators) : ∃ i, 0 < i ∧ exposes s f i = true := by
  induction h with
  | leaf => cases hf
  | @node s x y op lhs rhs hbare hpoint hlhs hrhs ihlhs ihrhs =>
    obtain ⟨hx, hy⟩ := shift_operands hs hbare
    have hexposed : ∃ i, 0 < i ∧ exposes (bare s) f i = true := by
      rcases List.mem_cons.1 hf with rfl | hf
      · obtain ⟨hpos, hexp, -⟩ := Nesting.firstAfter?_spec hpoint
        exact ⟨x.length, hpos, hexp⟩
      rcases List.mem_append.1 hf with hleft | hright
      · obtain ⟨i, hpos, hexp⟩ := ihlhs hx hleft
        have hlt := (Nesting.exists_of_exposes hexp).2.1
        exact ⟨i, hpos, by rwa [hbare, Nesting.exposes_append_left hlt]⟩
      · obtain ⟨i, -, hexp⟩ := ihrhs hy hright
        exact ⟨x.length + 1 + i, by omega, by rwa [hbare, Nesting.exposes_behind hlhs.level_eq]⟩
    obtain ⟨i, hpos, hexp⟩ := hexposed
    obtain ⟨j, hle, hj⟩ := exists_exposes_of_bare hs hexp
    exact ⟨j, by omega, hj⟩

theorem Reads.ordered {s : Text} {t : Tree} (h : Reads s t) (hs : ∀ c ∈ s, shift c = 0) :
    t.Ordered := by
  induction h with
  | leaf => exact .leaf _
  | @node s x y op lhs rhs hbare hpoint hlhs hrhs ihlhs ihrhs =>
    obtain ⟨hx, hy⟩ := shift_operands hs hbare
    rw [hbare] at hpoint
    refine .node (ihlhs hx) (ihrhs hy) (fun f hf => ?_) fun f hf => ?_
    · obtain ⟨i, hpos, hexp⟩ := hlhs.exposes_of_mem hx hf
      exact Nesting.rank_lt_of_exposes_left hpoint hpos hexp
    · obtain ⟨i, -, hexp⟩ := hrhs.exposes_of_mem hy hf
      exact Nesting.rank_le_of_exposes_right hpoint hlhs.level_eq hexp

/-- A text without parentheses has a tree in which no operator stands below one that comes later in the split order,
and none to the left below its like: chains of one operator group to the right. -/
theorem parse_orders_operators {s : Text} (hopen : '(' ∉ s) (hclose : ')' ∉ s) :
    ∃ t, parse s = .ok t ∧ t.Ordered := by
  have hs := Nesting.shift_of_notMem hopen hclose
  have hnested := Nesting.nested_of_shift hs
  obtain ⟨t, ht⟩ := exists_parse_iff.2
    ⟨hnested.level_eq, Nesting.guarded_of_enclosable (Int.le_refl 0) hnested.enclosable⟩
  exact ⟨t, ht, (parse_eq_ok_iff.1 ht).ordered hs⟩

/-- The first minus is looser than the product before it, so it splits first and leaves the product without its second
operand. The minus behind the plus is a sign. -/
theorem parse_orders_operators_signs :
    '(' ∉ "2*-3+ -4/5-6".toList ∧ ')' ∉ "2*-3+ -4/5-6".toList ∧
    parse "2*-3+ -4/5-6".toList = .ok (.node .add
      (.node .sub (.node .mul (.leaf ['2']) (.leaf [])) (.leaf ['3']))
      (.node .sub (.node .div (.leaf ['-', '4']) (.leaf ['5'])) (.leaf ['6']))) ∧
    (Tree.node .add (.node .sub (.node .mul (.leaf ['2']) (.leaf [])) (.leaf ['3']))
      (.node .sub (.node .div (.leaf ['-', '4']) (.leaf ['5'])) (.leaf ['6']))).Ordered := by
  have hproduct : Reads "2*".toList (.node .mul (.leaf ['2']) (.leaf [])) :=
    .node (by decide) (by decide) (.leaf (s := ['2']) (by decide) (by decide))
      (.leaf (s := []) (by decide) (by decide))
  have hquotient : Reads "-4/5".toList (.node .div (.leaf ['-', '4']) (.leaf ['5'])) :=
    .node (by decide) (by decide) (.leaf (s := ['-', '4']) (by decide) (by decide))
      (.leaf (s := ['5']) (by decide) (by decide))
  have hlhs : Reads "2*-3".toList (.node .sub (.node .mul (.leaf ['2']) (.leaf [])) (.leaf ['3'])) :=
    .node (by decide) (by decide) hproduct (.leaf (s := ['3']) (by decide) (by decide))
  have hrhs : Reads " -4/5-6".toList
      (.node .sub (.node .div (.leaf ['-', '4']) (.leaf ['5'])) (.leaf ['6'])) :=
    .node (by decide) (by decide) hquotient (.leaf (s := ['6']) (by decide) (by decide))
  have hreads : Reads "2*-3+ -4/5-6".toList (.node .add
      (.node .sub (.node .mul (.leaf ['2']) (.leaf [])) (.leaf ['3']))
      (.node .sub (.node .div (.leaf ['-', '4']) (.leaf ['5'])) (.leaf ['6']))) :=
    .node (by decide) (by decide) hlhs hrhs
  have hopen : '(' ∉ "2*-3+ -4/5-6".toList := by decide
  have hclose : ')' ∉ "2*-3+ -4/5-6".toList := by decide
  obtain ⟨t, ht, hordered⟩ := parse_orders_operators hopen hclose
  have hparse := parse_eq_ok_iff.2 hreads
  obtain rfl := Except.ok.inj (hparse.symm.trans ht)
  exact ⟨hopen, hclose, hparse, hordered⟩

end Parse
end ReversePolish
