import ReversePolish.Proofs.Spine

/-! How a text is read, as a relation between texts and trees: one rule for a leaf, one for a split. What
holds of every tree that is read follows by induction on these two rules. -/
namespace ReversePolish
namespace Parse

open Nesting (level)

inductive Reads : Text → Tree → Prop
  | leaf {s : Text} (hlevel : level s = 0) (hpoint : Nesting.firstAfter? 0 (bare s) = none) :
    Reads s (.leaf (bare s))
  | node {s x y : Text} {op : Operator} {lhs rhs : Tree} (hbare : bare s = x ++ op.symbol :: y)
    (hpoint : Nesting.firstAfter? 0 (bare s) = some (x.length, op)) (hlhs : Reads x lhs)
    (hrhs : Reads y rhs) : Reads s (.node op lhs rhs)

theorem Reads.level_eq {s : Text} {t : Tree} (h : Reads s t) : level s = 0 := by
  induction h with
  | leaf hlevel => exact hlevel
  | node hbare _ _ _ ihlhs ihrhs =>
    rw [← level_bare, hbare]
    simp [ihlhs, ihrhs]

theorem parse_unbalanced {s : Text} (hlevel : level s ≠ 0) :
    parse s = .error (.unbalanced (bare s)) := by
  have hbalanced : ¬Nesting.balanced (bare s) = true := by
    rwa [Nesting.balanced_iff, level_bare]
  rw [parse_eq_descend, descend, if_neg hbalanced]

theorem parse_leaf {s : Text} (hlevel : level s = 0) (hpoint : Nesting.firstAfter? 0 (bare s) = none) :
    parse s = .ok (.leaf (bare s)) := by
  rw [parse_eq_descend, descend_leaf (by rw [level_bare, hlevel]) hpoint]

theorem parse_node {s x y : Text} {op : Operator} (hlevel : level s = 0)
    (hbare : bare s = x ++ op.symbol :: y)
    (hpoint : Nesting.firstAfter? 0 (bare s) = some (x.length, op)) :
    parse s = (parse x).bind fun lhs => (parse y).map (.node op lhs) := by
  rw [← level_bare, hbare] at hlevel
  rw [hbare] at hpoint
  rw [parse_eq_descend, hbare, descend_node hlevel hpoint, recursive_eq, recursive_eq,
    ← parse_eq_descend, ← parse_eq_descend]

/-- Induction over the operands of a text: it is unbalanced, a leaf, or split into two shorter operands. -/
theorem operand_induction {motive : Text → Prop} (unbalanced : ∀ s, level s ≠ 0 → motive s)
    (leaf : ∀ s, level s = 0 → Nesting.firstAfter? 0 (bare s) = none → motive s)
    (node : ∀ s x op y, level s = 0 → bare s = x ++ Operator.symbol op :: y →
      Nesting.firstAfter? 0 (bare s) = some (x.length, op) → level x ≤ 0 → motive x → motive y →
      motive s)
    (s : Text) : motive s := by
  induction hn : s.length using Nat.strong_induction_on generalizing s with
  | h n ih =>
    by_cases hlevel : level s = 0
    · cases hpoint : Nesting.firstAfter? 0 (bare s) with
      | none => exact leaf s hlevel hpoint
      | some hit =>
        obtain ⟨i, op⟩ := hit
        obtain ⟨x, y, hbare, rfl, hneg⟩ := Nesting.exists_of_firstAfter? hpoint
        obtain ⟨hx, hy⟩ := length_operands_lt hbare
        exact node s x op y hlevel hbare hpoint hneg (ih _ (hn ▸ hx) x rfl) (ih _ (hn ▸ hy) y rfl)
    · exact unbalanced s hlevel

theorem parse_eq_ok_iff {s : Text} {t : Tree} : parse s = .ok t ↔ Reads s t := by
  constructor
  · intro h
    induction s using operand_induction generalizing t with
    | unbalanced s hlevel =>
      rw [parse_unbalanced hlevel] at h
      cases h
    | leaf s hlevel hpoint =>
      rw [parse_leaf hlevel hpoint] at h
      cases h
      exact .leaf hlevel hpoint
    | node s x op y hlevel hbare hpoint _ ihx ihy =>
      rw [parse_node hlevel hbare hpoint] at h
      obtain ⟨lhs, hlhs, hnode⟩ := bind_eq_ok_iff.1 h
      obtain ⟨rhs, hrhs, rfl⟩ := map_eq_ok_iff.1 hnode
      exact .node hbare hpoint (ihx hlhs) (ihy hrhs)
  · intro h
    induction h with
    | leaf hlevel hpoint => exact parse_leaf hlevel hpoint
    | node hbare hpoint hlhs hrhs ihlhs ihrhs =>
      have hlevel := (Reads.node hbare hpoint hlhs hrhs).level_eq
      rw [parse_node hlevel hbare hpoint, ihlhs, ihrhs]
      rfl

theorem parse_congr {s s' : Text} (h : bare s' = bare s) : parse s' = parse s := by
  rw [parse_eq_descend, parse_eq_descend, h]

theorem Reads.congr {s s' : Text} {t : Tree} (h : Reads s t) (hbare : bare s' = bare s) :
    Reads s' t := by
  rwa [← parse_eq_ok_iff, parse_congr hbare, parse_eq_ok_iff]

end Parse
end ReversePolish
