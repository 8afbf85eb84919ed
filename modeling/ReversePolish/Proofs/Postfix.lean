import ReversePolish.Proofs.Accepted
import ReversePolish.Proofs.Evaluates

/-! Streams of tokens and the trees they write. A reader that keeps a tree wherever the machine keeps a number
finds the trees of a stream, so there is one list of them at most, and the values of the trees are the stack. -/
namespace ReversePolish
namespace Tree

def Numeric (t : Tree) : Prop := ∀ text ∈ t.leaves, Literal.isLiteral text = true

theorem numeric_node {op : Operator} {lhs rhs : Tree} :
    (node op lhs rhs).Numeric ↔ lhs.Numeric ∧ rhs.Numeric :=
  forall_mem_leaves_node

theorem numeric_leaf {text : Text} : (leaf text).Numeric ↔ Literal.isLiteral text = true := by
  simp [Numeric, leaves]

/-- The trees written so far, the last one first, after one more token. -/
def grow? (trees : List Tree) (token : Text) : Option (List Tree) :=
  match Operator.ofToken? token with
  | some op =>
    match trees with
    | rhs :: lhs :: below => some (node op lhs rhs :: below)
    | _ => none
  | none => if Literal.isLiteral token then some (leaf token :: trees) else none

theorem grow?_literal {token : Text} (h : Literal.isLiteral token = true) (trees : List Tree) :
    grow? trees token = some (leaf token :: trees) := by
  rw [grow?, Literal.ofToken?_of_isLiteral h]
  exact if_pos h

theorem grow?_symbol (op : Operator) (lhs rhs : Tree) (below : List Tree) :
    grow? (rhs :: lhs :: below) [op.symbol] = some (node op lhs rhs :: below) := by
  rw [grow?, Operator.ofToken?_symbol]

theorem grow?_cases {trees trees' : List Tree} {token : Text} (h : grow? trees token = some trees') :
    Literal.isLiteral token = true ∧ trees' = leaf token :: trees ∨
      ∃ op lhs rhs below, token = [Operator.symbol op] ∧ trees = rhs :: lhs :: below ∧
        trees' = node op lhs rhs :: below := by
  unfold grow? at h
  split at h
  · rename_i op hop
    split at h
    · rename_i rhs lhs below
      cases h
      exact .inr ⟨op, lhs, rhs, below, Operator.eq_of_ofToken? hop, rfl, rfl⟩
    · cases h
  · split at h
    · rename_i hliteral
      cases h
      exact .inl ⟨hliteral, rfl⟩
    · cases h

theorem foldlM_postorder {t : Tree} (h : t.Numeric) (trees : List Tree) :
    t.postorder.foldlM grow? trees = some (t :: trees) := by
  induction t generalizing trees with
  | leaf text =>
    rw [postorder_leaf, List.foldlM_cons, grow?_literal (numeric_leaf.1 h)]
    rfl
  | node op lhs rhs ihlhs ihrhs =>
    obtain ⟨hlhs, hrhs⟩ := numeric_node.1 h
    simp only [postorder_node, List.foldlM_append, ihlhs hlhs, ihrhs hrhs, Option.bind_eq_bind,
      Option.bind_some, List.foldlM_cons, grow?_symbol, List.foldlM_nil, Option.pure_def]

theorem foldlM_forest {forest : List Tree} (h : ∀ t ∈ forest, t.Numeric) (trees : List Tree) :
    (forest.flatMap postorder).foldlM grow? trees = some (forest.reverse ++ trees) := by
  induction forest generalizing trees with
  | nil => rfl
  | cons t forest ih =>
    obtain ⟨ht, hforest⟩ := List.forall_mem_cons.1 h
    rw [List.flatMap_cons, List.foldlM_append, foldlM_postorder ht, Option.bind_eq_bind,
      Option.bind_some, ih hforest, List.reverse_cons, List.append_assoc, List.singleton_append]

theorem flatMap_grow? {trees trees' : List Tree} {token : Text} (h : grow? trees token = some trees') :
    trees'.reverse.flatMap postorder = trees.reverse.flatMap postorder ++ [token] := by
  rcases grow?_cases h with ⟨-, rfl⟩ | ⟨op, lhs, rhs, below, rfl, rfl, rfl⟩
  · simp
  · simp

theorem flatMap_foldlM {trees trees' : List Tree} {tokens : List Text}
    (h : tokens.foldlM grow? trees = some trees') :
    trees'.reverse.flatMap postorder = trees.reverse.flatMap postorder ++ tokens := by
  induction tokens generalizing trees with
  | nil =>
    cases h
    rw [List.append_nil]
  | cons token tokens ih =>
    rw [List.foldlM_cons] at h
    obtain ⟨between, hgrow, hrest⟩ := Option.bind_eq_some_iff.1 h
    rw [ih hrest, flatMap_grow? hgrow, List.append_assoc, List.singleton_append]

/-- The trees whose tokens, one tree after the other, are the tokens of a stream. -/
structure Postfix (forest : List Tree) (tokens : List Text) : Prop where
  numeric : ∀ t ∈ forest, t.Numeric
  tokens_eq : tokens.map Text.trim = forest.flatMap postorder

theorem Postfix.foldlM_eq {forest : List Tree} {tokens : List Text} (h : Postfix forest tokens) :
    (tokens.map Text.trim).foldlM grow? [] = some forest.reverse := by
  rw [h.tokens_eq, foldlM_forest h.numeric, List.append_nil]

theorem Postfix.unique {forest other : List Tree} {tokens : List Text} (h : Postfix forest tokens)
    (hother : Postfix other tokens) : other = forest := by
  have hread := hother.foldlM_eq
  rw [h.foldlM_eq, Option.some.injEq, List.reverse_inj] at hread
  exact hread.symm

theorem Postfix.eq_of_suffix {earlier : List Tree} {t other : Tree} {tokens : List Text}
    (h : Postfix (earlier ++ [t]) tokens) (hother : other.Numeric)
    (hsuffix : other.postorder <:+ tokens.map Text.trim) : other = t := by
  have hread := h.foldlM_eq
  obtain ⟨front, hfront⟩ := hsuffix
  rw [← hfront, List.foldlM_append] at hread
  obtain ⟨trees, -, hlast⟩ := Option.bind_eq_some_iff.1 hread
  rw [foldlM_postorder hother] at hlast
  simpa using congrArg (Option.map List.head?) hlast

end Tree

namespace Machine

/-- A machine without faults that holds the values of some trees, the last one on top. -/
structure Holds (m : Machine) (trees : List Tree) : Prop where
  faults : m.faults = []
  values : List.Forall₂ (fun t x => Tree.value? t = some x) trees m.stack
  numeric : ∀ t ∈ trees, t.Numeric

theorem holds_fresh : fresh.Holds [] := ⟨rfl, .nil, by simp⟩

/-- What the reader can read the machine can run, to the same effect. -/
theorem Holds.submit {m : Machine} {trees trees' : List Tree} {token : Text} (h : m.Holds trees)
    (hgrow : Tree.grow? trees token.trim = some trees') : (m.submit token).Holds trees' := by
  obtain ⟨stack, faults⟩ := m
  obtain ⟨hfaults, hvalues, hnumeric⟩ := h
  rcases Tree.grow?_cases hgrow with ⟨hliteral, rfl⟩ | ⟨op, lhs, rhs, below, hop, rfl, rfl⟩
  · rw [submit_literal hliteral]
    refine ⟨hfaults, .cons ?_ hvalues, List.forall_mem_cons.2 ⟨Tree.numeric_leaf.2 hliteral, hnumeric⟩⟩
    rw [Tree.value?, Text.trim_trim, if_pos hliteral]
  · -- the last two trees are the operands, the right one on top
    cases hvalues with
    | cons hrhs hvalues =>
      cases hvalues with
      | cons hlhs hvalues =>
        rw [Machine.submit, hop, Operator.ofToken?_symbol]
        simp only [List.forall_mem_cons] at hnumeric
        obtain ⟨hrhsNumeric, hlhsNumeric, hbelow⟩ := hnumeric
        refine ⟨hfaults, .cons ?_ hvalues,
          List.forall_mem_cons.2 ⟨Tree.numeric_node.2 ⟨hlhsNumeric, hrhsNumeric⟩, hbelow⟩⟩
        rw [Tree.value?, hlhs, hrhs]

/-- What the machine can run without a fault the reader can read. -/
theorem Holds.exists_grow {m : Machine} {trees : List Tree} {token : Text} (h : m.Holds trees)
    (hfaults : (m.submit token).faults = []) : ∃ trees', Tree.grow? trees token.trim = some trees' := by
  rcases submit_cases_of_faults (hfaults.trans h.faults.symm) with ⟨op, hop, htwo, -⟩ | ⟨-, hliteral, -⟩
  · rw [← h.values.length_eq] at htwo
    rcases trees with _ | ⟨rhs, _ | ⟨lhs, below⟩⟩
    · simp at htwo
    · simp at htwo
    · exact ⟨_, by rw [Operator.eq_of_ofToken? hop, Tree.grow?_symbol]⟩
  · exact ⟨_, Tree.grow?_literal hliteral trees⟩

theorem Holds.run {m : Machine} {trees trees' : List Tree} {tokens : List Text} (h : m.Holds trees)
    (hread : (tokens.map Text.trim).foldlM Tree.grow? trees = some trees') :
    (tokens.foldl Machine.submit m).Holds trees' := by
  induction tokens generalizing m trees with
  | nil =>
    cases hread
    exact h
  | cons token tokens ih =>
    rw [List.map_cons, List.foldlM_cons] at hread
    obtain ⟨between, hgrow, hrest⟩ := Option.bind_eq_some_iff.1 hread
    exact ih (h.submit hgrow) hrest

theorem Holds.exists_read {m : Machine} {trees : List Tree} {tokens : List Text} (h : m.Holds trees)
    (hfaults : (tokens.foldl Machine.submit m).faults = []) :
    ∃ trees', (tokens.map Text.trim).foldlM Tree.grow? trees = some trees' := by
  induction tokens generalizing m trees with
  | nil => exact ⟨trees, rfl⟩
  | cons token tokens ih =>
    rw [List.foldl_cons] at hfaults
    have hsubmit := faults_suffix_run tokens (m.submit token)
    rw [hfaults, List.suffix_nil] at hsubmit
    obtain ⟨between, hgrow⟩ := h.exists_grow hsubmit
    obtain ⟨trees', hread⟩ := ih (h.submit hgrow) hfaults
    refine ⟨trees', ?_⟩
    rw [List.map_cons, List.foldlM_cons, hgrow, Option.bind_eq_bind, Option.bind_some, hread]

theorem exists_forest {tokens : List Text} (h : (tokens.foldl submit fresh).faults = []) :
    ∃ forest, Tree.Postfix forest tokens := by
  obtain ⟨trees, hread⟩ := holds_fresh.exists_read h
  refine ⟨trees.reverse, ?_, ?_⟩
  · simpa using (holds_fresh.run hread).numeric
  · simpa using (Tree.flatMap_foldlM hread).symm

theorem holds_forest {forest : List Tree} {tokens : List Text} (h : Tree.Postfix forest tokens) :
    (tokens.foldl submit fresh).Holds forest.reverse :=
  holds_fresh.run h.foldlM_eq

theorem exists_last_of_run {tokens : List Text} {x : Float} (h : run tokens = .ok x) :
    ∃ earlier t, Tree.Postfix (earlier ++ [t]) tokens ∧ t.value? = some x := by
  obtain ⟨hfaults, htop⟩ := outcome_eq_ok_iff.1 h
  obtain ⟨forest, hforest⟩ := exists_forest hfaults
  have hvalues := (holds_forest hforest).values
  obtain ⟨below, hstack⟩ := List.head?_eq_some_iff.1 htop
  rw [hstack] at hvalues
  obtain ⟨t, earlier, ht, -, hreverse⟩ := List.forall₂_cons_right_iff.1 hvalues
  refine ⟨earlier.reverse, t, ?_, ht⟩
  rwa [← List.reverse_cons, ← hreverse, List.reverse_reverse]

theorem run_append_postorder {t : Tree} {x : Float} (h : t.value? = some x) {front : List Text}
    (hfront : (front.foldl submit fresh).faults = []) : run (front ++ t.postorder) = .ok x := by
  rw [run, List.foldl_append, ← Tree.crawl_eq, Tree.crawl_of_value? h, outcome_eq_ok_iff]
  exact ⟨hfront, rfl⟩

/-- A stream raises no fault on a fresh machine exactly if its tokens are those of some trees of literals, one
tree after the other. There is one list of such trees, and the stack holds their values, the first at the bottom;
the value of a leaf is the number that its digits are rounded to. So the outcome is the value of the one tree whose tokens end the stream, whatever stream without a fault stands
before it. -/
theorem stream_raises_nothing_iff (tokens : List Text) :
    ((tokens.foldl submit fresh).diagnostics = [] ↔ ∃ forest, Tree.Postfix forest tokens) ∧
    (∀ forest, Tree.Postfix forest tokens →
      (∀ other, Tree.Postfix other tokens → other = forest) ∧
      List.Forall₂ (fun t x => t.Evaluates x ∧ t.value? = some x) forest
        (tokens.foldl submit fresh).stack.reverse) ∧
    ∀ x, run tokens = .ok x → ∃ earlier t, Tree.Postfix (earlier ++ [t]) tokens ∧
      t.Evaluates x ∧ t.value? = some x ∧
      (∀ other : Tree, other.Numeric → other.postorder <:+ tokens.map Text.trim → other = t) ∧
      ∀ front : List Text, (front.foldl submit fresh).diagnostics = [] →
        run (front ++ t.postorder) = .ok x := by
  simp only [diagnostics, List.reverse_eq_nil_iff]
  refine ⟨⟨exists_forest, ?_⟩, fun forest hforest => ⟨fun other hother => hforest.unique hother, ?_⟩,
    fun x hx => ?_⟩
  · rintro ⟨forest, hforest⟩
    exact (holds_forest hforest).faults
  · have hvalues := (holds_forest hforest).values
    rw [← List.forall₂_reverse_iff, List.reverse_reverse] at hvalues
    exact hvalues.imp fun t x hx => ⟨Tree.evaluates_of_value? hx, hx⟩
  · obtain ⟨earlier, t, hpostfix, hvalue⟩ := exists_last_of_run hx
    exact ⟨earlier, t, hpostfix, Tree.evaluates_of_value? hvalue, hvalue, fun other => hpostfix.eq_of_suffix,
      fun front => run_append_postorder hvalue⟩

/-- The nine is left below and counts for nothing. -/
theorem stream_raises_nothing_extra :
    ([['9'], ['8'], [' ', '5'], ['2'], ['-'], ['-']].foldl submit fresh).stack =
      [Float.ofBits 0x4014000000000000, Float.ofBits 0x4022000000000000] ∧
    run [['9'], ['8'], [' ', '5'], ['2'], ['-'], ['-']] = .ok (Float.ofBits 0x4014000000000000) ∧
    ∃ earlier t, Tree.Postfix (earlier ++ [t]) [['9'], ['8'], [' ', '5'], ['2'], ['-'], ['-']] ∧
      t.Evaluates (Float.ofBits 0x4014000000000000) := by
  have hstack : ([['9'], ['8'], [' ', '5'], ['2'], ['-'], ['-']].foldl submit fresh).stack =
      [Float.ofBits 0x4014000000000000, Float.ofBits 0x4022000000000000] := by decide +kernel
  have hrun : run [['9'], ['8'], [' ', '5'], ['2'], ['-'], ['-']] = .ok (Float.ofBits 0x4014000000000000) :=
    outcome_eq_ok_iff.2 ⟨rfl, congrArg List.head? hstack⟩
  obtain ⟨earlier, t, hpostfix, hvalue, -⟩ := (stream_raises_nothing_iff _).2.2 _ hrun
  exact ⟨hstack, hrun, earlier, t, hpostfix, hvalue⟩

end Machine
end ReversePolish
