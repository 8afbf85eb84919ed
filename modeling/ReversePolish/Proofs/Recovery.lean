import ReversePolish.Proofs.Demand

/-! What a fault leaves behind. The faults raised so far are only ever added to, and nothing but the outcome reads
them. An operator that finds too little takes it all the same, so behind it the stack is empty whatever it was, and
the machine goes on like a fresh one. A token that is not recognised leaves the stack alone. -/
namespace ReversePolish
namespace Machine

/-- A token raises this fault, behind those that have been raised before. -/
def Raises (m : Machine) (token : Text) (fault : Fault) : Prop :=
  (m.submit token).diagnostics = m.diagnostics ++ [fault]

theorem raises_iff {m : Machine} {token : Text} {fault : Fault} :
    m.Raises token fault ↔ (m.submit token).faults = fault :: m.faults := by
  rw [Raises, diagnostics, diagnostics, ← List.reverse_cons, List.reverse_inj]

/-- The machine with the faults that were raised before it was set up. -/
def behind (m : Machine) (earlier : List Fault) : Machine := { m with faults := m.faults ++ earlier }

variable (m : Machine) (earlier : List Fault)

@[simp] theorem stack_behind : (m.behind earlier).stack = m.stack := rfl

@[simp] theorem diagnostics_behind :
    (m.behind earlier).diagnostics = earlier.reverse ++ m.diagnostics := by
  simp [behind, diagnostics]

theorem diagnostics_fresh : fresh.diagnostics = [] := rfl

theorem operate_behind (op : Operator) :
    (m.behind earlier).operate op = (m.operate op).behind earlier := by
  obtain ⟨stack, faults⟩ := m
  rcases stack with _ | ⟨x, _ | ⟨y, below⟩⟩ <;> rfl

theorem submit_behind (token : Text) :
    (m.behind earlier).submit token = (m.submit token).behind earlier := by
  unfold submit
  split
  · exact operate_behind m earlier _
  · split
    · split <;> rfl
    · rfl

theorem foldl_submit_behind (tokens : List Text) :
    tokens.foldl submit (m.behind earlier) = (tokens.foldl submit m).behind earlier := by
  induction tokens generalizing m with
  | nil => rfl
  | cons token tokens ih => rw [List.foldl_cons, submit_behind, ih, List.foldl_cons]

variable {m} {token : Text}

theorem submit_fault_cases (m : Machine) (token : Text) :
    (m.submit token).faults = m.faults ∨
      (∃ op, m.submit token = fresh.behind (.underflow op :: m.faults)) ∨
        m.submit token = m.raise (.unrecognized token.trim) := by
  rcases m.submit_cases token with ⟨op, -, -, x, hsubmit⟩ | ⟨op, -, -, hsubmit⟩ | ⟨-, -, hsubmit⟩ |
    ⟨-, -, hsubmit⟩
  · exact .inl (by rw [hsubmit])
  · exact .inr (.inl ⟨op, hsubmit⟩)
  · exact .inl (by rw [hsubmit, push])
  · exact .inr (.inr hsubmit)

theorem submit_of_raises {fault : Fault} (h : m.Raises token fault) :
    (∃ op, fault = .underflow op ∧ m.submit token = fresh.behind (fault :: m.faults)) ∨
      fault = .unrecognized token.trim ∧ m.submit token = m.raise fault := by
  rw [raises_iff] at h
  rcases submit_fault_cases m token with hfaults | ⟨op, hsubmit⟩ | hsubmit
  · rw [hfaults] at h
    exact absurd h.symm (List.cons_ne_self _ _)
  · rw [hsubmit] at h
    obtain rfl : Fault.underflow op = fault := (List.cons.inj h).1
    exact .inl ⟨op, rfl, hsubmit⟩
  · rw [hsubmit] at h
    obtain rfl : Fault.unrecognized token.trim = fault := (List.cons.inj h).1
    exact .inr ⟨rfl, hsubmit⟩

theorem submit_of_underflow {op : Operator} (h : m.Raises token (.underflow op)) :
    m.submit token = fresh.behind (.underflow op :: m.faults) := by
  rcases submit_of_raises h with ⟨f, -, hsubmit⟩ | ⟨hfault, -⟩
  · exact hsubmit
  · cases hfault

theorem stack_of_unrecognized {text : Text} (h : m.Raises token (.unrecognized text)) :
    (m.submit token).stack = m.stack := by
  rcases submit_of_raises h with ⟨f, hfault, -⟩ | ⟨-, hsubmit⟩
  · cases hfault
  · rw [hsubmit, raise]

theorem diagnostics_submit (m : Machine) (token : Text) :
    (m.submit token).diagnostics = m.diagnostics ∨ ∃ fault, m.Raises token fault := by
  rcases submit_fault_cases m token with hfaults | ⟨op, hsubmit⟩ | hsubmit
  · exact .inl (congrArg List.reverse hfaults)
  · exact .inr ⟨.underflow op, raises_iff.2 (congrArg faults hsubmit)⟩
  · exact .inr ⟨.unrecognized token.trim, raises_iff.2 (congrArg faults hsubmit)⟩

/-- Behind an underflow a run has the stack of a fresh machine, and raises the faults of a fresh machine. -/
theorem run_behind_underflow {op : Operator} (h : m.Raises token (.underflow op)) (tokens : List Text) :
    (tokens.foldl submit (m.submit token)).stack = (tokens.foldl submit fresh).stack ∧
      (tokens.foldl submit (m.submit token)).diagnostics =
        (m.submit token).diagnostics ++ (tokens.foldl submit fresh).diagnostics := by
  rw [submit_of_underflow h, foldl_submit_behind, stack_behind, diagnostics_behind, diagnostics_behind,
    diagnostics_fresh, List.append_nil]
  exact ⟨rfl, rfl⟩

/-- Two machines that raise an underflow at the same token are alike from there on, whatever they were: after every
continuation they have the same stack and have raised the same faults since, and so has a fresh machine that was fed
the continuation alone. A token that is not recognised leaves the stack as it was, and every token leaves the faults
as they were, or adds one behind them. -/
theorem underflow_forgets (m n : Machine) :
    (∀ token op, m.Raises token (.underflow op) → n.Raises token (.underflow op) →
      ∀ tokens : List Text,
        (tokens.foldl submit (m.submit token)).stack = (tokens.foldl submit fresh).stack ∧
        (tokens.foldl submit (n.submit token)).stack = (tokens.foldl submit fresh).stack ∧
        (tokens.foldl submit (m.submit token)).diagnostics =
          (m.submit token).diagnostics ++ (tokens.foldl submit fresh).diagnostics ∧
        (tokens.foldl submit (n.submit token)).diagnostics =
          (n.submit token).diagnostics ++ (tokens.foldl submit fresh).diagnostics) ∧
    (∀ token text, m.Raises token (.unrecognized text) → (m.submit token).stack = m.stack) ∧
    ∀ token, (m.submit token).diagnostics = m.diagnostics ∨ ∃ fault, m.Raises token fault := by
  refine ⟨fun token op hm hn tokens => ?_, fun token text h => stack_of_unrecognized h,
    fun token => diagnostics_submit m token⟩
  obtain ⟨hstack, hraised⟩ := run_behind_underflow hm tokens
  obtain ⟨hstack', hraised'⟩ := run_behind_underflow hn tokens
  exact ⟨hstack, hstack', hraised, hraised'⟩

/-- One machine loses its only value to the product, the other has none to lose. Behind it the plus finds one value
in both. -/
theorem underflow_forgets_value :
    Raises ⟨[7], [.unrecognized ['x']]⟩ ['*'] (.underflow .mul) ∧ fresh.Raises ['*'] (.underflow .mul) ∧
    ([['2'], ['+'], ['3']].foldl submit (submit ⟨[7], [.unrecognized ['x']]⟩ ['*'])).stack =
      [Literal.value ['3']] ∧
    ([['2'], ['+'], ['3']].foldl submit (fresh.submit ['*'])).stack = [Literal.value ['3']] ∧
    ([['2'], ['+'], ['3']].foldl submit (submit ⟨[7], [.unrecognized ['x']]⟩ ['*'])).diagnostics =
      [.unrecognized ['x'], .underflow .mul, .underflow .add] := by
  have hraises : Raises ⟨[7], [.unrecognized ['x']]⟩ ['*'] (.underflow .mul) := rfl
  have hfresh : fresh.Raises ['*'] (.underflow .mul) := rfl
  obtain ⟨hstack, hstack', hraised, -⟩ :=
    (underflow_forgets ⟨[7], [.unrecognized ['x']]⟩ fresh).1 _ _ hraises hfresh [['2'], ['+'], ['3']]
  exact ⟨hraises, hfresh, hstack, hstack', hraised⟩

end Machine
end ReversePolish
