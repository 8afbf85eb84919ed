import ReversePolish.Proofs.Demand

/-! A stream decided by counting. As long as nothing has gone wrong every literal has added a value to the stack and
every operator has taken one away, so the two counts say where an operator finds too little. The first fault is the
outcome, and what comes behind it does not matter. -/
namespace ReversePolish
namespace Machine

def operators (tokens : List Text) : Nat :=
  tokens.countP fun token => (Operator.ofToken? token.trim).isSome

def literals (tokens : List Text) : Nat := tokens.countP fun token => Literal.isLiteral token.trim

/-- What is wrong with a token behind others: it is an operator and there are fewer literals than two more than there
are operators before it, or it is neither operator nor literal. -/
def offence? (before : List Text) (token : Text) : Option Fault :=
  match Operator.ofToken? token.trim with
  | some op => if literals before < operators before + 2 then some (.underflow op) else none
  | none => if Literal.isLiteral token.trim then none else some (.unrecognized token.trim)

def Clean (tokens : List Text) : Prop :=
  ∀ before token after, tokens = before ++ token :: after → offence? before token = none

theorem clean_nil : Clean [] := by
  intro before token after h
  simp at h

theorem clean_concat {tokens : List Text} {token : Text} :
    Clean (tokens ++ [token]) ↔ Clean tokens ∧ offence? tokens token = none := by
  constructor
  · intro h
    refine ⟨fun before other after htokens => ?_, h tokens token [] rfl⟩
    apply h before other (after ++ [token])
    rw [htokens, List.append_assoc, List.cons_append]
  · rintro ⟨hclean, hlast⟩ before other after htokens
    rcases List.eq_nil_or_concat after with rfl | ⟨after, last, rfl⟩
    · obtain ⟨rfl, hother⟩ := List.append_inj' htokens rfl
      rwa [← (List.cons.inj hother).1]
    · rw [List.concat_eq_append, ← List.cons_append, ← List.append_assoc] at htokens
      exact hclean before other after (List.append_inj' htokens rfl).1

theorem clean_or_exists_offence (tokens : List Text) :
    Clean tokens ∨ ∃ before token after fault, tokens = before ++ token :: after ∧ Clean before ∧
      offence? before token = some fault := by
  induction tokens using List.reverseRecOn with
  | nil => exact .inl clean_nil
  | append_singleton tokens token ih =>
    rcases ih with hclean | ⟨before, other, after, fault, rfl, hbefore, hfault⟩
    · cases hoffence : offence? tokens token with
      | none => exact .inl (clean_concat.2 ⟨hclean, hoffence⟩)
      | some fault => exact .inr ⟨tokens, token, [], fault, rfl, hclean, hoffence⟩
    · exact .inr ⟨before, other, after ++ [token], fault, by simp, hbefore, hfault⟩

section Concat

variable {tokens : List Text} {token : Text}

theorem operators_concat_operator {op : Operator} (h : Operator.ofToken? token.trim = some op) :
    operators (tokens ++ [token]) = operators tokens + 1 := by
  simp [operators, h]

theorem literals_concat_operator {op : Operator} (h : Operator.ofToken? token.trim = some op) :
    literals (tokens ++ [token]) = literals tokens := by
  have hliteral : Literal.isLiteral token.trim = false := by
    rw [Operator.eq_of_ofToken? h]
    cases op <;> rfl
  simp [literals, hliteral]

theorem operators_concat_literal (h : Literal.isLiteral token.trim = true) :
    operators (tokens ++ [token]) = operators tokens := by
  simp [operators, Literal.ofToken?_of_isLiteral h]

theorem literals_concat_literal (h : Literal.isLiteral token.trim = true) :
    literals (tokens ++ [token]) = literals tokens + 1 := by
  simp [literals, h]

end Concat

/-- A machine without faults whose stack is as high as the counts of a stream say. -/
structure Counted (tokens : List Text) (m : Machine) : Prop where
  faults : m.faults = []
  height : m.stack.length + operators tokens = literals tokens

theorem counted_fresh : Counted [] fresh := ⟨rfl, rfl⟩

namespace Counted

variable {tokens : List Text} {token : Text} {m : Machine}

/-- What is wrong by the counts is what the machine raises. -/
theorem faults_submit (h : Counted tokens m) :
    (m.submit token).faults = (offence? tokens token).toList := by
  have hheight := h.height
  rcases m.submit_cases token with ⟨op, hop, hle, x, hsubmit⟩ | ⟨op, hop, hlt, hsubmit⟩ |
    ⟨hop, hliteral, hsubmit⟩ | ⟨hop, hliteral, hsubmit⟩
  · have henough : ¬literals tokens < operators tokens + 2 := by omega
    simp [hsubmit, h.faults, offence?, hop, henough]
  · have hfew : literals tokens < operators tokens + 2 := by omega
    simp [hsubmit, h.faults, offence?, hop, hfew]
  · simp [hsubmit, push, h.faults, offence?, hop, hliteral]
  · simp [hsubmit, raise, h.faults, offence?, hop, hliteral]

theorem submit (h : Counted tokens m) (hoffence : offence? tokens token = none) :
    Counted (tokens ++ [token]) (m.submit token) := by
  have hheight := h.height
  have hfaults : (m.submit token).faults = [] := by rw [h.faults_submit, hoffence, Option.toList_none]
  refine ⟨hfaults, ?_⟩
  rcases submit_cases_of_faults (hfaults.trans h.faults.symm) with
    ⟨op, hop, hle, x, hsubmit⟩ | ⟨hop, hliteral, hsubmit⟩
  · rw [operators_concat_operator hop, literals_concat_operator hop, hsubmit]
    simp only [List.length_cons, List.length_drop]
    omega
  · rw [operators_concat_literal hliteral, literals_concat_literal hliteral, hsubmit]
    simp only [push, List.length_cons]
    omega

end Counted

theorem Clean.counted {tokens : List Text} (h : Clean tokens) :
    Counted tokens (tokens.foldl submit fresh) := by
  induction tokens using List.reverseRecOn with
  | nil => exact counted_fresh
  | append_singleton tokens token ih =>
    obtain ⟨hclean, hoffence⟩ := clean_concat.1 h
    rw [List.foldl_append]
    exact (ih hclean).submit hoffence

theorem length_submit_pos {m : Machine} {token : Text} (h : (m.submit token).faults = m.faults) :
    0 < (m.submit token).stack.length := by
  rcases submit_cases_of_faults h with ⟨op, -, -, x, hsubmit⟩ | ⟨-, -, hsubmit⟩
  · simp [hsubmit]
  · simp [hsubmit, push]

theorem Clean.length_pos {tokens : List Text} (h : Clean tokens) (hne : tokens ≠ []) :
    0 < (tokens.foldl submit fresh).stack.length := by
  rcases List.eq_nil_or_concat tokens with rfl | ⟨tokens, token, rfl⟩
  · exact absurd rfl hne
  · rw [List.concat_eq_append] at h ⊢
    have hfaults := h.counted.faults
    rw [List.foldl_append, List.foldl_cons, List.foldl_nil] at hfaults ⊢
    exact length_submit_pos (hfaults.trans (clean_concat.1 h).1.counted.faults.symm)

theorem Clean.exists_run {tokens : List Text} (h : Clean tokens) (hne : tokens ≠ []) :
    ∃ x, run tokens = .ok x := by
  have hpos := h.length_pos hne
  obtain ⟨x, below, hstack⟩ := List.exists_cons_of_length_pos hpos
  exact ⟨x, outcome_eq_ok_iff.2 ⟨h.counted.faults, by rw [hstack, List.head?_cons]⟩⟩

theorem outcome_of_faults {m : Machine} {fault : Fault} (h : m.faults = [fault]) (tokens : List Text) :
    (tokens.foldl submit m).outcome = .error fault := by
  obtain ⟨later, hfaults⟩ := faults_suffix_run tokens m
  rw [h] at hfaults
  rw [outcome, ← hfaults, List.getLast?_concat]

theorem run_of_offence {before after : List Text} {token : Text} {fault : Fault} (h : Clean before)
    (hoffence : offence? before token = some fault) :
    run (before ++ token :: after) = .error fault := by
  rw [run, List.foldl_append, List.foldl_cons]
  apply outcome_of_faults
  rw [h.counted.faults_submit, hoffence, Option.toList_some]

theorem ne_emptyStack_of_offence {before : List Text} {token : Text} {fault : Fault}
    (h : offence? before token = some fault) : fault ≠ .emptyStack := by
  rintro rfl
  unfold offence? at h
  split at h
  · split at h <;> cases h
  · split at h <;> cases h

theorem run_eq_emptyStack_iff {tokens : List Text} :
    run tokens = .error .emptyStack ↔ tokens = [] := by
  constructor
  · intro h
    by_contra hne
    rcases clean_or_exists_offence tokens with hclean | ⟨before, token, after, fault, rfl, hbefore, hfault⟩
    · obtain ⟨x, hx⟩ := hclean.exists_run hne
      rw [hx] at h
      cases h
    · rw [run_of_offence hbefore hfault] at h
      cases h
      exact ne_emptyStack_of_offence hfault rfl
  · rintro rfl
    rfl

end Machine

theorem Tree.postorder_ne_nil (t : Tree) : t.postorder ≠ [] := by
  cases t <;> simp

theorem exists_run_of_evaluate {s : Text} {fault : Fault} (h : evaluate s = .error (.run fault)) :
    ∃ t : Tree, parse s = .ok t ∧ Machine.run t.postorder = .error fault := by
  cases hparse : parse s with
  | error e =>
    rw [evaluate, execute, hparse] at h
    cases h
  | ok t =>
    refine ⟨t, rfl, ?_⟩
    rw [evaluate_of_parse hparse, ← Machine.run_postorder] at h
    cases hrun : Machine.run t.postorder with
    | ok x => simp [hrun, Except.mapError] at h
    | error other => simpa [hrun, Except.mapError] using h

namespace Machine

/-- The outcome of a stream is decided by counting literals and operators. Either something is wrong with a token
behind those before it, and then the first of these faults is the outcome, whatever comes later; or nothing is, and
then there is a value unless the stream is empty, on a stack as high as there are more literals than operators. So
only the empty stream has an empty stack for its outcome, and no text has. -/
theorem run_decided_by_counts (tokens : List Text) :
    (Clean tokens ∨ ∃ before token after fault, tokens = before ++ token :: after ∧ Clean before ∧
      offence? before token = some fault) ∧
    (∀ before token after fault, tokens = before ++ token :: after → Clean before →
      offence? before token = some fault → run tokens = .error fault) ∧
    (Clean tokens → tokens ≠ [] → (∃ x, run tokens = .ok x) ∧
      (tokens.foldl submit fresh).stack.length = literals tokens - operators tokens ∧
      1 ≤ literals tokens - operators tokens) ∧
    (run tokens = .error .emptyStack ↔ tokens = []) ∧
    ∀ s, evaluate s ≠ .error (.run .emptyStack) := by
  refine ⟨clean_or_exists_offence tokens, ?_, fun hclean hne => ?_, run_eq_emptyStack_iff, fun s h => ?_⟩
  · rintro before token after fault rfl hbefore hfault
    exact run_of_offence hbefore hfault
  · have hheight := hclean.counted.height
    have hpos := hclean.length_pos hne
    exact ⟨hclean.exists_run hne, by omega, by omega⟩
  · obtain ⟨t, -, hrun⟩ := exists_run_of_evaluate h
    exact t.postorder_ne_nil (run_eq_emptyStack_iff.1 hrun)

/-- The product finds one value, and the later tokens do not count. Without it two values are left. -/
theorem run_decided_by_counts_late :
    Clean [['7']] ∧ offence? [['7']] ['*'] = some (.underflow .mul) ∧
    run [['7'], ['*'], ['x'], ['3']] = .error (.underflow .mul) ∧
    Clean [['7'], ['2'], ['-'], ['3']] ∧ (∃ x, run [['7'], ['2'], ['-'], ['3']] = .ok x) ∧
    ([['7'], ['2'], ['-'], ['3']].foldl submit fresh).stack.length = 2 := by
  have hseven : Clean [['7']] := clean_concat.2 ⟨clean_nil, rfl⟩
  have hfew : offence? [['7']] ['*'] = some (.underflow .mul) := rfl
  have htwo : Clean [['7'], ['2']] := clean_concat.2 ⟨hseven, rfl⟩
  have hminus : Clean [['7'], ['2'], ['-']] := clean_concat.2 ⟨htwo, rfl⟩
  have hclean : Clean [['7'], ['2'], ['-'], ['3']] := clean_concat.2 ⟨hminus, rfl⟩
  have hfault := (run_decided_by_counts [['7'], ['*'], ['x'], ['3']]).2.1 _ _ _ _ rfl hseven hfew
  obtain ⟨hrun, hheight, -⟩ :=
    (run_decided_by_counts [['7'], ['2'], ['-'], ['3']]).2.2.1 hclean (List.cons_ne_nil _ _)
  exact ⟨hseven, hfew, hfault, hclean, hrun, hheight⟩

end Machine
end ReversePolish
