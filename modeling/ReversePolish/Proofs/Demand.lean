import ReversePolish.Proofs.TreeValue

/-! What a tree takes from the stack. A leaf that holds an operator symbol runs as that operator, and so
borrows two values from below; every other fault-free leaf gives one. On a fresh machine nothing can be
borrowed. -/
namespace ReversePolish
namespace Machine

theorem faults_suffix_operate (m : Machine) (op : Operator) : m.faults <:+ (m.operate op).faults := by
  unfold operate
  split
  · exact List.suffix_rfl
  · exact List.suffix_cons _ _

theorem faults_suffix_submit (m : Machine) (token : Text) : m.faults <:+ (m.submit token).faults := by
  unfold submit
  split
  · exact m.faults_suffix_operate _
  · split
    · split
      · exact List.suffix_rfl
      · exact List.suffix_cons _ _
    · exact List.suffix_cons _ _

theorem operate_of_ne_nil {m : Machine} {y : Float} {below : List Float}
    (hstack : m.stack = y :: below) (hbelow : below ≠ []) (op : Operator) :
    ∃ x, m.operate op = ⟨x :: below.tail, m.faults⟩ := by
  obtain ⟨z, below, rfl⟩ := List.exists_cons_of_ne_nil hbelow
  exact ⟨op.apply z y, by rw [operate, hstack]; rfl⟩

theorem two_le_of_operate {m : Machine} {op : Operator} (h : (m.operate op).faults = m.faults) :
    2 ≤ m.stack.length := by
  unfold operate at h
  split at h
  · rename_i y z below hstack
    simp [hstack]
  · simp [raise] at h

/-- An operator that finds fewer than two operands takes what there is. -/
theorem operate_of_lt_two {m : Machine} (h : m.stack.length < 2) (op : Operator) :
    m.operate op = ⟨[], .underflow op :: m.faults⟩ := by
  unfold operate
  split
  · rename_i rhs lhs below hstack
    rw [hstack, List.length_cons, List.length_cons] at h
    omega
  · rfl

theorem operate_of_two_le {m : Machine} (h : 2 ≤ m.stack.length) (op : Operator) :
    ∃ x, m.operate op = ⟨x :: m.stack.drop 2, m.faults⟩ := by
  rcases hm : m.stack with _ | ⟨y, _ | ⟨z, below⟩⟩
  · simp [hm] at h
  · simp [hm] at h
  · exact operate_of_ne_nil hm (List.cons_ne_nil z below) op

theorem submit_cases (m : Machine) (token : Text) :
    (∃ op, Operator.ofToken? token.trim = some op ∧ 2 ≤ m.stack.length ∧
      ∃ x, m.submit token = ⟨x :: m.stack.drop 2, m.faults⟩) ∨
    (∃ op, Operator.ofToken? token.trim = some op ∧ m.stack.length < 2 ∧
      m.submit token = ⟨[], .underflow op :: m.faults⟩) ∨
    (Operator.ofToken? token.trim = none ∧ Literal.isLiteral token.trim = true ∧
      m.submit token = m.push (Literal.value token.trim)) ∨
    (Operator.ofToken? token.trim = none ∧ Literal.isLiteral token.trim = false ∧
      m.submit token = m.raise (.unrecognized token.trim)) := by
  cases hop : Operator.ofToken? token.trim with
  | some op =>
    by_cases hheight : 2 ≤ m.stack.length
    · obtain ⟨x, hx⟩ := operate_of_two_le hheight op
      exact .inl ⟨op, rfl, hheight, x, by rw [submit_operator hop, hx]⟩
    · have hlt := Nat.lt_of_not_le hheight
      exact .inr (.inl ⟨op, rfl, hlt, by rw [submit_operator hop, operate_of_lt_two hlt]⟩)
  | none =>
    by_cases hliteral : Literal.isLiteral token.trim = true
    · exact .inr (.inr (.inl ⟨rfl, hliteral, submit_literal hliteral m⟩))
    · rw [Bool.not_eq_true] at hliteral
      exact .inr (.inr (.inr ⟨rfl, hliteral, submit_unrecognized hop hliteral m⟩))

theorem submit_cases_of_faults {m : Machine} {token : Text} (h : (m.submit token).faults = m.faults) :
    (∃ op, Operator.ofToken? token.trim = some op ∧ 2 ≤ m.stack.length ∧
      ∃ x, m.submit token = ⟨x :: m.stack.drop 2, m.faults⟩) ∨
    (Operator.ofToken? token.trim = none ∧ Literal.isLiteral token.trim = true ∧
      m.submit token = m.push (Literal.value token.trim)) := by
  rcases m.submit_cases token with hoperator | ⟨op, -, -, hsubmit⟩ | hliteral | ⟨-, -, hsubmit⟩
  · exact .inl hoperator
  · simp [hsubmit] at h
  · exact .inr hliteral
  · simp [hsubmit, raise] at h

/-- No fault is ever taken back. -/
theorem faults_suffix_run (tokens : List Text) (m : Machine) :
    m.faults <:+ (tokens.foldl submit m).faults := by
  induction tokens generalizing m with
  | nil => exact List.suffix_rfl
  | cons token tokens ih => exact (m.faults_suffix_submit token).trans (ih _)

theorem outcome_eq_ok_iff {m : Machine} {x : Float} :
    m.outcome = .ok x ↔ m.faults = [] ∧ m.stack.head? = some x := by
  unfold outcome
  rw [← List.getLast?_eq_none_iff]
  split
  · rename_i fault hlast
    simp [hlast]
  · rename_i top below hlast hstack
    simp [hlast, hstack]
  · rename_i hlast hstack
    simp [hstack]

end Machine

namespace Tree

def borrowers (t : Tree) : Nat := t.leaves.countP fun text => (Operator.ofToken? text.trim).isSome

/-- Every leaf is an integer literal or runs as an operator. -/
def Runnable (t : Tree) : Prop :=
  ∀ text ∈ t.leaves, Literal.isLiteral text.trim = true ∨ (Operator.ofToken? text.trim).isSome

theorem borrowers_node (op : Operator) (lhs rhs : Tree) :
    (node op lhs rhs).borrowers = lhs.borrowers + rhs.borrowers := by
  simp [borrowers, leaves]

theorem runnable_node {op : Operator} {lhs rhs : Tree} :
    (node op lhs rhs).Runnable ↔ lhs.Runnable ∧ rhs.Runnable :=
  forall_mem_leaves_node

theorem borrowers_leaf_operator {text : Text} {op : Operator}
    (h : Operator.ofToken? text.trim = some op) : (leaf text).borrowers = 1 := by
  simp [borrowers, leaves, h]

theorem borrowers_leaf_other {text : Text} (h : Operator.ofToken? text.trim = none) :
    (leaf text).borrowers = 0 := by
  simp [borrowers, leaves, h]

theorem faults_suffix_crawl (t : Tree) (m : Machine) :
    m.faults <:+ (t.crawl Machine.submit m).faults := by
  rw [crawl_eq]
  exact Machine.faults_suffix_run _ m

/-- With two values below for every leaf that borrows, the tree leaves one value in the place of all it has
borrowed. -/
theorem crawl_of_runnable {t : Tree} (h : t.Runnable) {m : Machine}
    (hstack : 2 * t.borrowers ≤ m.stack.length) :
    ∃ x, t.crawl Machine.submit m = ⟨x :: m.stack.drop (2 * t.borrowers), m.faults⟩ := by
  induction t generalizing m with
  | leaf text =>
    rw [crawl_leaf]
    cases hop : Operator.ofToken? text.trim with
    | some op =>
      rw [borrowers_leaf_operator hop] at hstack ⊢
      rw [Machine.submit_operator hop]
      exact Machine.operate_of_two_le hstack op
    | none =>
      rcases h text (List.mem_singleton_self text) with hliteral | hop'
      · rw [borrowers_leaf_other hop, Machine.submit_literal hliteral]
        exact ⟨_, rfl⟩
      · simp [hop] at hop'
  | node op lhs rhs ihlhs ihrhs =>
    rw [borrowers_node] at hstack ⊢
    obtain ⟨hlhs, hrhs⟩ := runnable_node.1 h
    obtain ⟨x, hx⟩ := ihlhs hlhs (m := m) (by omega)
    obtain ⟨y, hy⟩ := ihrhs hrhs (m := ⟨x :: m.stack.drop (2 * lhs.borrowers), m.faults⟩)
      (by simp only [List.length_cons, List.length_drop]; omega)
    -- below the right value stands the left one, or what is left where both have borrowed
    have hbelow : (x :: m.stack.drop (2 * lhs.borrowers)).drop (2 * rhs.borrowers) ≠ [] := by
      rw [ne_eq, List.drop_eq_nil_iff, List.length_cons, List.length_drop]
      omega
    rw [crawl_node, hx, hy, Machine.submit_symbol]
    obtain ⟨z, hz⟩ := Machine.operate_of_ne_nil (m := ⟨y :: _, m.faults⟩) rfl hbelow op
    refine ⟨z, ?_⟩
    rw [hz, List.tail_drop, List.drop_succ_cons, List.drop_drop, ← Nat.mul_add]

theorem runnable_of_crawl {t : Tree} {m : Machine}
    (h : (t.crawl Machine.submit m).faults = m.faults) :
    t.Runnable ∧ 2 * t.borrowers ≤ m.stack.length := by
  induction t generalizing m with
  | leaf text =>
    rw [crawl_leaf] at h
    rcases Machine.submit_cases_of_faults h with ⟨op, hop, htwo, -⟩ | ⟨hop, hliteral, -⟩
    · rw [borrowers_leaf_operator hop]
      exact ⟨by simp [Runnable, leaves, hop], htwo⟩
    · rw [borrowers_leaf_other hop]
      exact ⟨by simp [Runnable, leaves, hliteral], Nat.zero_le _⟩
  | node op lhs rhs ihlhs ihrhs =>
    rw [crawl_node, Machine.submit_symbol] at h
    have hlhs := faults_suffix_crawl lhs m
    have hrhs := faults_suffix_crawl rhs (lhs.crawl Machine.submit m)
    have hop := Machine.faults_suffix_operate (rhs.crawl Machine.submit (lhs.crawl Machine.submit m)) op
    rw [h] at hop
    have hfaults := (hrhs.trans hop).eq_of_length_le hlhs.length_le
    have hfaults' := hop.eq_of_length_le (hlhs.trans hrhs).length_le
    obtain ⟨hrun, hheight⟩ := ihlhs hfaults
    obtain ⟨hrun', hheight'⟩ := ihrhs (hfaults'.trans hfaults.symm)
    refine ⟨runnable_node.2 ⟨hrun, hrun'⟩, ?_⟩
    -- the operator found its two operands above what is left
    have htwo := Machine.two_le_of_operate (h.trans hfaults'.symm)
    obtain ⟨x, hx⟩ := crawl_of_runnable hrun hheight
    obtain ⟨y, hy⟩ := crawl_of_runnable hrun' hheight'
    rw [hy, List.length_cons, List.length_drop] at htwo
    rw [hx, List.length_cons, List.length_drop] at hheight' htwo
    rw [borrowers_node]
    omega

theorem exists_crawl_of_leaves {t : Tree}
    (h : ∀ text ∈ t.leaves, Literal.isLiteral text.trim = true) (m : Machine) :
    ∃ x, t.crawl Machine.submit m = m.push x := by
  obtain ⟨x, hx⟩ := value?_of_leaves h
  exact ⟨x, crawl_of_value? hx m⟩

/-- On an empty stack nothing can be borrowed, so every leaf is a literal. -/
theorem leaves_of_crawl_fresh {t : Tree} (h : (t.crawl Machine.submit .fresh).faults = []) :
    ∀ text ∈ t.leaves, Literal.isLiteral text.trim = true := by
  obtain ⟨hrun, hheight⟩ := runnable_of_crawl (m := .fresh) h
  have hnone : t.borrowers = 0 := by
    have hempty : Machine.fresh.stack.length = 0 := rfl
    omega
  rw [borrowers, List.countP_eq_zero] at hnone
  intro text htext
  exact (hrun text htext).resolve_right (hnone text htext)

/-- A tree raises no new fault on a machine exactly if each of its leaves is a literal or runs as an operator,
and two values are on the stack for each that does. It then leaves one value more than what lies below those it
has borrowed, and this part of the stack as it was. On a fresh machine only trees of literals raise nothing, and
one value is left. -/
theorem crawl_raises_nothing_iff (t : Tree) (m : Machine) :
    ((t.crawl Machine.submit m).diagnostics = m.diagnostics ↔
      t.Runnable ∧ 2 * t.borrowers ≤ m.stack.length) ∧
    ((t.crawl Machine.submit m).diagnostics = m.diagnostics →
      (t.crawl Machine.submit m).stack.length = m.stack.length + 1 - 2 * t.borrowers ∧
      ∃ x, (t.crawl Machine.submit m).stack = x :: m.stack.drop (2 * t.borrowers)) ∧
    ((t.crawl Machine.submit .fresh).diagnostics = [] ↔
      ∀ text ∈ t.leaves, Literal.isLiteral text.trim = true) ∧
    ((t.crawl Machine.submit .fresh).diagnostics = [] →
      ∃ x, (t.crawl Machine.submit .fresh).stack = [x]) := by
  have hruns : (t.crawl Machine.submit m).faults = m.faults ↔
      t.Runnable ∧ 2 * t.borrowers ≤ m.stack.length := by
    refine ⟨runnable_of_crawl, fun ⟨hrun, hheight⟩ => ?_⟩
    obtain ⟨x, hx⟩ := crawl_of_runnable hrun hheight
    rw [hx]
  have hfresh : (t.crawl Machine.submit .fresh).faults = [] ↔
      ∀ text ∈ t.leaves, Literal.isLiteral text.trim = true := by
    refine ⟨leaves_of_crawl_fresh, fun hleaves => ?_⟩
    obtain ⟨x, hx⟩ := exists_crawl_of_leaves hleaves .fresh
    rw [hx]
    rfl
  simp only [Machine.diagnostics, List.reverse_inj, List.reverse_eq_nil_iff]
  refine ⟨hruns, fun h => ?_, hfresh, fun h => ?_⟩
  · obtain ⟨hrun, hheight⟩ := hruns.1 h
    obtain ⟨x, hx⟩ := crawl_of_runnable hrun hheight
    refine ⟨?_, x, by rw [hx]⟩
    rw [hx, List.length_cons, List.length_drop]
    omega
  · obtain ⟨x, hx⟩ := exists_crawl_of_leaves (hfresh.1 h) .fresh
    exact ⟨x, by rw [hx]; rfl⟩

/-- The minus borrows both values of the stack, and the product is over its result. -/
theorem crawl_raises_nothing_borrowed :
    ((node .mul (leaf [' ', '-']) (leaf ['3'])).crawl Machine.submit ⟨[2, 7, 1], []⟩).diagnostics = [] ∧
    ∃ x, ((node .mul (leaf [' ', '-']) (leaf ['3'])).crawl Machine.submit ⟨[2, 7, 1], []⟩).stack =
      [x, 1] := by
  obtain ⟨hiff, hstack, -⟩ := crawl_raises_nothing_iff (node .mul (leaf [' ', '-']) (leaf ['3']))
    ⟨[2, 7, 1], []⟩
  have hraises := hiff.2 ⟨by unfold Runnable; decide, by decide⟩
  exact ⟨hraises, (hstack hraises).2⟩

end Tree

theorem exists_evaluate_iff {s : Text} :
    (∃ x, evaluate s = .ok x) ↔
      ∃ t, parse s = .ok t ∧ ∀ text ∈ t.leaves, Literal.isLiteral text.trim = true := by
  constructor
  · rintro ⟨x, hx⟩
    cases hparse : parse s with
    | error e =>
      rw [evaluate, execute, hparse] at hx
      cases hx
    | ok t =>
      refine ⟨t, rfl, Tree.leaves_of_crawl_fresh ?_⟩
      rw [evaluate_of_parse hparse] at hx
      cases houtcome : (t.crawl Machine.submit .fresh).outcome with
      | error fault =>
        rw [houtcome] at hx
        cases hx
      | ok y => exact (Machine.outcome_eq_ok_iff.1 houtcome).1
  · rintro ⟨t, hparse, hleaves⟩
    obtain ⟨x, hx⟩ := Tree.exists_crawl_of_leaves hleaves .fresh
    rw [evaluate_of_parse hparse, hx]
    exact ⟨x, rfl⟩

end ReversePolish
