import ReversePolish.Proofs.Postfix
import ReversePolish.Proofs.Replay
import ReversePolish.Tree.Equality

/-! Different trees have different postfix lines. If no leaf is an operator symbol, then the last tree of a stream of
tokens can be read off its end, the right operand before the left one. If every leaf is one word as well, then the
tokens can be read off the line. -/
namespace ReversePolish
namespace Tree

def Plain (t : Tree) : Prop :=
  ∀ text ∈ t.leaves, text ≠ [] ∧ (∀ c ∈ text, isBlank c = false) ∧ Operator.ofToken? text = none

theorem plain_node {op : Operator} {lhs rhs : Tree} :
    (node op lhs rhs).Plain ↔ lhs.Plain ∧ rhs.Plain :=
  forall_mem_leaves_node

theorem Plain.ne_symbol {text : Text} (h : (leaf text).Plain) (op : Operator) : text ≠ [op.symbol] := by
  rintro rfl
  obtain ⟨-, -, hop⟩ := h _ (List.mem_singleton_self _)
  rw [Operator.ofToken?_symbol] at hop
  cases hop

theorem Numeric.plain {t : Tree} (h : t.Numeric) : t.Plain := by
  intro text htext
  obtain ⟨hne, hblank⟩ := Literal.notBlank_of_isLiteral (h text htext)
  exact ⟨hne, hblank, Literal.ofToken?_of_isLiteral (h text htext)⟩

/-- Two streams that end in the tokens of a tree each are equal only if the trees are, and what stands before them. -/
theorem eq_of_append_postorder {a b : Tree} (ha : a.Plain) (hb : b.Plain) {x y : List Text}
    (h : x ++ a.postorder = y ++ b.postorder) : x = y ∧ a = b := by
  induction a generalizing b x y with
  | leaf text =>
    cases b with
    | leaf other =>
      obtain ⟨hfront, htoken⟩ := List.append_inj' h rfl
      rw [postorder_leaf, postorder_leaf, List.singleton_inj] at htoken
      exact ⟨hfront, congrArg leaf htoken⟩
    | node op lhs rhs =>
      rw [postorder_node, ← List.append_assoc] at h
      obtain ⟨-, htoken⟩ := List.append_inj' h rfl
      exact absurd (List.singleton_inj.1 htoken) (ha.ne_symbol op)
  | node op lhs rhs ihlhs ihrhs =>
    rw [postorder_node, ← List.append_assoc] at h
    cases b with
    | leaf other =>
      obtain ⟨-, htoken⟩ := List.append_inj' h rfl
      exact absurd (List.singleton_inj.1 htoken).symm (hb.ne_symbol op)
    | node op' lhs' rhs' =>
      obtain ⟨hlhsa, hrhsa⟩ := plain_node.1 ha
      obtain ⟨hlhsb, hrhsb⟩ := plain_node.1 hb
      -- the symbols are equal, then the right operands, then the left ones
      rw [postorder_node, ← List.append_assoc, ← List.append_assoc, ← List.append_assoc] at h
      obtain ⟨hoperands, htoken⟩ := List.append_inj' h rfl
      have hop : op = op' := by simpa using htoken
      obtain ⟨hleft, hrhs⟩ := ihrhs hrhsa hrhsb hoperands
      obtain ⟨hfront, hlhs⟩ := ihlhs hlhsa hlhsb hleft
      exact ⟨hfront, by rw [hop, hlhs, hrhs]⟩

theorem Plain.map_trim_postorder {t : Tree} (h : t.Plain) : t.postorder.map Text.trim = t.postorder := by
  induction t with
  | leaf text =>
    obtain ⟨-, hblank, -⟩ := h text (List.mem_singleton_self text)
    simp [Text.trim_of_notBlank hblank]
  | node op lhs rhs ihlhs ihrhs =>
    obtain ⟨hlhs, hrhs⟩ := plain_node.1 h
    simp [ihlhs hlhs, ihrhs hrhs, Machine.trim_symbol]

theorem Plain.words_rpn {t : Tree} (h : t.Plain) : t.rpn.words = t.postorder := by
  have hwords : ∀ text ∈ t.leaves, text.words = [text.trim] := by
    intro text htext
    obtain ⟨hne, hblank, -⟩ := h text htext
    rw [Text.words_of_notBlank hne hblank, Text.trim_of_notBlank hblank]
  rw [Tree.words_rpn, flatMap_words_postorder hwords, h.map_trim_postorder]

/-- Trees whose leaves are words and no operator symbols have the same postfix line exactly if they are equal. -/
theorem rpn_eq_iff_same {a b : Tree} (ha : a.Plain) (hb : b.Plain) :
    a.rpn = b.rpn ↔ a.same b = true := by
  rw [same_iff]
  constructor
  · intro h
    have htokens : a.postorder = b.postorder := by
      rw [← ha.words_rpn, ← hb.words_rpn, h]
    exact (eq_of_append_postorder ha hb (x := []) (y := []) htokens).2
  · intro h
    rw [h]

/-- Without parentheses the two groupings of a chain are still told apart, also with a sign in it. -/
theorem rpn_eq_iff_same_grouping :
    (node .sub (leaf ['8']) (node .sub (leaf ['5']) (leaf ['-', '2']))).Plain ∧
    (node .sub (node .sub (leaf ['8']) (leaf ['5'])) (leaf ['-', '2'])).Plain ∧
    (node .sub (leaf ['8']) (node .sub (leaf ['5']) (leaf ['-', '2']))).rpn ≠
      (node .sub (node .sub (leaf ['8']) (leaf ['5'])) (leaf ['-', '2'])).rpn := by
  have hright : (node .sub (leaf ['8']) (node .sub (leaf ['5']) (leaf ['-', '2']))).Numeric := by
    unfold Numeric
    decide
  have hleft : (node .sub (node .sub (leaf ['8']) (leaf ['5'])) (leaf ['-', '2'])).Numeric := by
    unfold Numeric
    decide
  refine ⟨hright.plain, hleft.plain, fun h => ?_⟩
  rw [rpn_eq_iff_same hright.plain hleft.plain, same_iff] at h
  cases h

end Tree
end ReversePolish
