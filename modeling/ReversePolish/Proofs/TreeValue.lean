import ReversePolish.Evaluation
import ReversePolish.Proofs.Literals
import ReversePolish.Proofs.Reading
import ReversePolish.Proofs.Walk
import ReversePolish.Tree.Value

/-! A machine fed the tokens of a tree computes the value of the tree. It works above whatever is on its
stack, so the two operands of a node are still there in order when its symbol arrives. -/
namespace ReversePolish
namespace Machine

theorem submit_literal {token : Text} (h : Literal.isLiteral token.trim = true) (m : Machine) :
    m.submit token = m.push (Literal.value token.trim) := by
  rw [submit, Literal.ofToken?_of_isLiteral h, if_pos h, Binary64.ofText?_of_isLiteral h]

theorem submit_operator {token : Text} {op : Operator} (h : Operator.ofToken? token.trim = some op)
    (m : Machine) : m.submit token = m.operate op := by
  rw [submit, h]

theorem submit_unrecognized {token : Text} (hop : Operator.ofToken? token.trim = none)
    (hliteral : Literal.isLiteral token.trim = false) (m : Machine) :
    m.submit token = m.raise (.unrecognized token.trim) := by
  rw [submit, hop]
  exact if_neg (Bool.eq_false_iff.1 hliteral)

theorem trim_symbol (op : Operator) : Text.trim [op.symbol] = [op.symbol] :=
  Text.trim_eq_self ⟨by simp, by simp⟩

@[simp] theorem submit_symbol (m : Machine) (op : Operator) : m.submit [op.symbol] = m.operate op := by
  rw [submit, trim_symbol, Operator.ofToken?_symbol]

theorem run_postorder (t : Tree) : run t.postorder = (t.crawl submit .fresh).outcome := by
  rw [run, Tree.crawl_eq]

/-- The right operand is on top, and the left one below it. -/
theorem operate_push_push (m : Machine) (x y : Float) (op : Operator) :
    ((m.push x).push y).operate op = m.push (op.apply x y) := rfl

end Machine

namespace Tree

theorem value?_of_leaves {t : Tree} (h : ∀ text ∈ t.leaves, Literal.isLiteral text.trim = true) :
    ∃ x, t.value? = some x := by
  induction t with
  | leaf text => exact ⟨_, by rw [value?, if_pos (h text (List.mem_singleton_self text))]⟩
  | node op lhs rhs ihlhs ihrhs =>
    obtain ⟨hlhs, hrhs⟩ := forall_mem_leaves_node.1 h
    obtain ⟨x, hx⟩ := ihlhs hlhs
    obtain ⟨y, hy⟩ := ihrhs hrhs
    exact ⟨op.apply x y, by rw [value?, hx, hy]⟩

theorem crawl_of_value? {t : Tree} {x : Float} (h : t.value? = some x) (m : Machine) :
    t.crawl Machine.submit m = m.push x := by
  induction t generalizing x m with
  | leaf text =>
    rw [value?] at h
    split at h
    · rename_i hliteral
      cases h
      rw [crawl_leaf, Machine.submit_literal hliteral]
    · cases h
  | node op lhs rhs ihlhs ihrhs =>
    rw [value?] at h
    split at h
    · rename_i y z hlhs hrhs
      cases h
      rw [crawl_node, ihlhs hlhs, ihrhs hrhs, Machine.submit_symbol, Machine.operate_push_push]
    · cases h

end Tree

theorem execute_of_parse {s : Text} {t : Tree} (h : parse s = .ok t) :
    execute s = .ok (t.rpn, t.crawl Machine.submit .fresh) := by
  rw [execute, h, ← Tree.traverse_eq]
  rfl

theorem evaluate_of_parse {s : Text} {t : Tree} (h : parse s = .ok t) :
    evaluate s = (t.crawl Machine.submit .fresh).outcome.mapError .run := by
  rw [evaluate, execute_of_parse h]

theorem evaluate_of_value? {s : Text} {t : Tree} {x : Float} (hparse : parse s = .ok t) (h : t.value? = some x) :
    evaluate s = .ok x := by
  rw [evaluate_of_parse hparse, Tree.crawl_of_value? h]
  rfl

end ReversePolish
