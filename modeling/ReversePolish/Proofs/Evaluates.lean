import ReversePolish.Proofs.LiteralValue

/-! The value of a tree as a relation, which says of a literal what number it is and does not compute it. The recursion
agrees with it, and the machine puts this value on its stack. -/
namespace ReversePolish
namespace Tree

/-- A leaf has what its integer is rounded to, and a node what its operator gives for the values of its operands. -/
inductive Evaluates : Tree → Float → Prop
  | leaf {text sign digits : Text} {x : Float} (hspells : Literal.Spells sign digits text.trim)
    (hrounds : Binary64.Rounds (decide (sign = ['-'])) (Nat.ofDigitChars 10 digits 0) x) : Evaluates (leaf text) x
  | node {op : Operator} {lhs rhs : Tree} {x y : Float} (hlhs : Evaluates lhs x) (hrhs : Evaluates rhs y) :
    Evaluates (node op lhs rhs) (op.apply x y)

theorem evaluates_of_value? {t : Tree} {x : Float} (h : t.value? = some x) : t.Evaluates x := by
  induction t generalizing x with
  | leaf text =>
    rw [value?] at h
    split at h
    · rename_i hliteral
      cases h
      obtain ⟨sign, digits, hspells⟩ := Literal.exists_spells hliteral
      exact .leaf hspells hspells.rounds_value
    · cases h
  | node op lhs rhs ihlhs ihrhs =>
    rw [value?] at h
    split at h
    · rename_i y z hlhs hrhs
      cases h
      exact .node (ihlhs hlhs) (ihrhs hrhs)
    · cases h

theorem Evaluates.value?_eq {t : Tree} {x : Float} (h : t.Evaluates x) : t.value? = some x := by
  induction h with
  | leaf hspells hrounds => rw [value?, if_pos hspells.isLiteral, hrounds.unique hspells.rounds_value]
  | node hlhs hrhs ihlhs ihrhs => rw [value?, ihlhs, ihrhs]

theorem evaluates_iff {t : Tree} {x : Float} : t.Evaluates x ↔ t.value? = some x :=
  ⟨Evaluates.value?_eq, evaluates_of_value?⟩

/-- If all leaves are integer literals, then the tree has one value, a leaf the number that its digits are rounded to.
Feeding the tree to any machine puts exactly this value on top of what is there and raises nothing. So the value of a
text that is read as such a tree is the value of the tree, and alone on the stack. -/
theorem crawl_pushes_value (t : Tree) (h : ∀ text ∈ t.leaves, Literal.isLiteral text.trim = true) :
    ∃ x, (∀ y, t.Evaluates y ↔ y = x) ∧ t.value? = some x ∧
      (∀ m : Machine, t.crawl Machine.submit m = ⟨x :: m.stack, m.faults⟩) ∧
      ∀ s, parse s = .ok t →
        (∃ line, execute s = .ok (line, ⟨[x], []⟩)) ∧ evaluate s = .ok x := by
  obtain ⟨x, hx⟩ := value?_of_leaves h
  refine ⟨x, fun y => ?_, hx, fun m => crawl_of_value? hx m, fun s hs => ⟨⟨t.rpn, ?_⟩, ?_⟩⟩
  · rw [evaluates_iff, hx, Option.some.injEq, eq_comm]
  · rw [execute_of_parse hs, crawl_of_value? hx]
    rfl
  · rw [evaluate_of_parse hs, crawl_of_value? hx]
    rfl

theorem crawl_pushes_value_nested :
    (∀ text ∈ (node .sub (leaf ['8']) (node .sub (leaf ['5']) (leaf ['2']))).leaves,
      Literal.isLiteral text.trim = true) ∧
    evaluate "8 - (5 - 2)".toList = .ok (Float.ofBits 0x4014000000000000) ∧
    (node .sub (leaf ['8']) (node .sub (leaf ['5']) (leaf ['2']))).Evaluates (Float.ofBits 0x4014000000000000) := by
  have hleaves : ∀ text ∈ (node .sub (leaf ['8']) (node .sub (leaf ['5']) (leaf ['2']))).leaves,
      Literal.isLiteral text.trim = true := by decide
  have hlhs : Parse.Reads "8 ".toList (leaf ['8']) := .leaf (by decide) (by decide)
  have hrhs : Parse.Reads " (5 - 2)".toList (node .sub (leaf ['5']) (leaf ['2'])) :=
    .node (by decide) (by decide) (.leaf (s := "5 ".toList) (by decide) (by decide))
      (.leaf (s := " 2".toList) (by decide) (by decide))
  have hparse : parse "8 - (5 - 2)".toList =
      .ok (node .sub (leaf ['8']) (node .sub (leaf ['5']) (leaf ['2']))) :=
    Parse.parse_eq_ok_iff.2 (.node (by decide) (by decide) hlhs hrhs)
  have hvalue : (node .sub (leaf ['8']) (node .sub (leaf ['5']) (leaf ['2']))).value? =
      some (Float.ofBits 0x4014000000000000) := by decide +kernel
  obtain ⟨x, hunique, hx, -, hread⟩ := crawl_pushes_value _ hleaves
  rw [hvalue, Option.some.injEq] at hx
  exact ⟨hleaves, hx ▸ (hread _ hparse).2, (hunique _).2 hx⟩

end Tree
end ReversePolish
