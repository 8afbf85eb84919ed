import ReversePolish.Proofs.Reading

/-! What is left over in the leaves. Every operand that is read is a piece of the text, and one that becomes a leaf has
no operator outside parentheses any more, but for a sign. -/
namespace ReversePolish
namespace Parse

open Nesting (level)

theorem Reads.exists_operand {s : Text} {t : Tree} (h : Reads s t) {text : Text}
    (htext : text ∈ t.leaves) : ∃ operand, operand <:+: s ∧ Reads operand (.leaf text) := by
  induction h with
  | @leaf s hlevel hpoint =>
    obtain rfl := List.mem_singleton.1 htext
    exact ⟨s, List.infix_rfl, .leaf hlevel hpoint⟩
  | @node s x y op lhs rhs hbare hpoint hlhs hrhs ihlhs ihrhs =>
    have hwhole : x ++ op.symbol :: y <:+: s := hbare ▸ infix_bare s
    rcases List.mem_append.1 htext with hleft | hright
    · obtain ⟨operand, hpiece, hreads⟩ := ihlhs hleft
      have hx : x <:+: x ++ op.symbol :: y := (List.prefix_append x _).isInfix
      exact ⟨operand, hpiece.trans (hx.trans hwhole), hreads⟩
    · obtain ⟨operand, hpiece, hreads⟩ := ihrhs hright
      have hy : y <:+: x ++ op.symbol :: y :=
        ((List.suffix_cons op.symbol y).trans (List.suffix_append x _)).isInfix
      exact ⟨operand, hpiece.trans (hy.trans hwhole), hreads⟩

/-- The text of every leaf is a trimmed piece of the text that was read. It closes as many parentheses as it opens, and
every operator in it but one at its beginning stands inside parentheses of the leaf. -/
theorem parse_splits_exhaustively {s : Text} {t : Tree} (h : parse s = .ok t) :
    ∀ text ∈ t.leaves, text <:+: s ∧ Text.Trimmed text ∧ text.count '(' = text.count ')' ∧
      ∀ x op y, text = x ++ Operator.symbol op :: y → x ≠ [] → x.count ')' < x.count '(' := by
  intro text htext
  obtain ⟨operand, hpiece, hreads⟩ := (parse_eq_ok_iff.1 h).exists_operand htext
  cases hreads with
  | leaf hlevel hpoint =>
    refine ⟨(infix_bare operand).trans hpiece, trimmed_bare operand, ?_, fun x op y hsplit hx => ?_⟩
    · rwa [← Nesting.level_eq_zero_iff, level_bare]
    · rw [hsplit] at hpoint
      exact Nesting.level_pos_iff.1 (Nesting.level_pos_of_firstAfter?_eq_none hpoint hx)

/-- The leaf keeps its sign and its group, with the product inside. -/
theorem parse_splits_exhaustively_group :
    parse "2 + -(4*5)".toList = .ok (.node .add (.leaf ['2']) (.leaf "-(4*5)".toList)) ∧
    "-(4*5)".toList ∈ (Tree.node .add (.leaf ['2']) (.leaf "-(4*5)".toList)).leaves ∧
    "-(4*5)".toList <:+: "2 + -(4*5)".toList ∧ Text.Trimmed "-(4*5)".toList ∧
    "-(4*5)".toList.count '(' = "-(4*5)".toList.count ')' ∧
    "-(4".toList.count ')' < "-(4".toList.count '(' := by
  have hreads : Reads "2 + -(4*5)".toList (.node .add (.leaf ['2']) (.leaf "-(4*5)".toList)) :=
    .node (by decide) (by decide) (.leaf (s := "2 ".toList) (by decide) (by decide))
      (.leaf (s := " -(4*5)".toList) (by decide) (by decide))
  have hparse := parse_eq_ok_iff.2 hreads
  have hmem : "-(4*5)".toList ∈ (Tree.node .add (.leaf ['2']) (.leaf "-(4*5)".toList)).leaves := by decide
  obtain ⟨hpiece, htrimmed, hcount, hinside⟩ := parse_splits_exhaustively hparse _ hmem
  exact ⟨hparse, hmem, hpiece, htrimmed, hcount, hinside _ .mul ['5', ')'] rfl (by decide)⟩

end Parse
end ReversePolish
