import ReversePolish.Proofs.Exposed

/-! Two operands with an operator between them. Parentheses and blanks hide nothing but what is inside them, so
the first split point is either this operator or that of the second operand, whichever is looser. -/
namespace ReversePolish
namespace Nesting

/-- A text that stands as one operand: it closes what it opens, and shows no operator but at its beginning. -/
structure Solid (s : Text) : Prop where
  ne_nil : s ≠ []
  level_eq : level s = 0
  hidden : ∀ op position, 0 < position → exposes s op position = false

theorem solid_of_tail {s : Text} (hne : s ≠ []) (hshift : ∀ c ∈ s, shift c = 0)
    (htail : ∀ op : Operator, op.symbol ∉ s.tail) : Solid s :=
  ⟨hne, (nested_of_shift hshift).level_eq, fun op _ => exposes_of_notMem_tail (htail op)⟩

theorem Nested.solid_group {s : Text} (hs : Nested s) : Solid ('(' :: s ++ [')']) :=
  ⟨List.cons_ne_nil _ _, hs.group.level_eq, fun op _ => exposes_group hs.enclosable op⟩

namespace Solid

variable {operand before after rest : Text} {op : Operator}

theorem level_append_blank (hoperand : Solid operand) (hbefore : Text.Blank before) :
    level (operand ++ before) = 0 := by
  rw [Nesting.level_append_blank operand hbefore, hoperand.level_eq]

theorem length_append_pos (hoperand : Solid operand) (before : Text) :
    0 < (operand ++ before).length := by
  have hne := List.length_pos_iff.2 hoperand.ne_nil
  rw [List.length_append]
  omega

/-- An operator between two operands is exposed, and else what the second operand exposes. -/
theorem exposes_link {other : Operator} {position : Nat} (hoperand : Solid operand)
    (hbefore : Text.Blank before) (hafter : Text.Blank after) (hposition : 0 < position)
    (h : exposes (operand ++ before ++ op.symbol :: (after ++ rest)) other position = true) :
    position = (operand ++ before).length ∧ other = op ∨
      ∃ i, position = (operand ++ before).length + (1 + (after.length + i)) ∧
        exposes rest other i = true := by
  rcases exposes_append_cases (hoperand.level_append_blank hbefore) h with hleft | ⟨i, rfl, hright⟩
  · rcases exposes_append_cases hoperand.level_eq hleft with hleft | ⟨i, -, hleft⟩
    · rw [hoperand.hidden other position hposition] at hleft
      cases hleft
    · rw [exposes_blank hbefore] at hleft
      cases hleft
  · rcases exposes_append_cases (x := [op.symbol]) (by simp) hright with hop | ⟨j, rfl, hrest⟩
    · obtain ⟨hget, -⟩ := exposes_iff.1 hop
      rw [List.getElem?_singleton] at hget
      split at hget
      · rename_i hi
        exact .inl ⟨by rw [hi, Nat.add_zero], (Operator.symbol_injective (Option.some.inj hget)).symm⟩
      · cases hget
    · rcases exposes_append_cases (level_blank hafter) hrest with hnot | ⟨k, rfl, hlast⟩
      · rw [exposes_blank hafter] at hnot
        cases hnot
      · exact .inr ⟨k, rfl, hlast⟩

theorem exposes_link_rest (hoperand : Solid operand) (hbefore : Text.Blank before)
    (hafter : Text.Blank after) (other : Operator) (i : Nat) :
    exposes (operand ++ before ++ op.symbol :: (after ++ rest)) other
      ((operand ++ before).length + (1 + (after.length + i))) = exposes rest other i := by
  have hsymbol : level [op.symbol] = 0 := by simp
  rw [exposes_append_right (hoperand.level_append_blank hbefore)]
  exact (exposes_append_right hsymbol other _).trans
    (exposes_append_right (level_blank hafter) other i)

theorem firstAfter?_link (hoperand : Solid operand) (hbefore : Text.Blank before)
    (hafter : Text.Blank after) (hsign : ∀ other, exposes rest other 0 = true → op.rank ≤ other.rank)
    (hrest : ∀ i other, 0 < i → exposes rest other i = true → op.rank ≤ other.rank) :
    firstAfter? 0 (operand ++ before ++ op.symbol :: (after ++ rest)) =
      some ((operand ++ before).length, op) := by
  have hlevel := hoperand.level_append_blank hbefore
  refine firstAfter?_eq_some (hoperand.length_append_pos before)
    (exposes_cons_symbol (Int.le_of_eq hlevel)) fun j other hj hother => ?_
  rcases hoperand.exposes_link hbefore hafter hj hother with ⟨rfl, rfl⟩ | ⟨i, rfl, hi⟩
  · exact precedes_of_rank_le (Nat.le_refl _) (Nat.le_refl _)
  · refine precedes_of_rank_le ?_ (Nat.le_add_right _ _)
    rcases Nat.eq_zero_or_pos i with rfl | hpos
    · exact hsign other hi
    · exact hrest i other hpos hi

/-- The split point of the second operand is that of both if it is looser than the operator between them, and
this in turn not tighter than a sign of the second operand. -/
theorem firstAfter?_link_rest {i : Nat} {op' : Operator} (hoperand : Solid operand)
    (hbefore : Text.Blank before) (hafter : Text.Blank after)
    (hpoint : firstAfter? 0 rest = some (i, op')) (hlooser : op'.rank < op.rank)
    (hsign : ∀ other, exposes rest other 0 = true → op.rank ≤ other.rank) :
    firstAfter? 0 (operand ++ before ++ op.symbol :: (after ++ rest)) =
      some ((operand ++ before).length + (1 + (after.length + i)), op') := by
  obtain ⟨hi, hexp, hfirst⟩ := firstAfter?_spec hpoint
  refine firstAfter?_eq_some (by omega)
    ((hoperand.exposes_link_rest hbefore hafter op' i).trans hexp) fun j other hj hother => ?_
  rcases hoperand.exposes_link hbefore hafter hj hother with ⟨-, rfl⟩ | ⟨k, rfl, hk⟩
  · exact .inl hlooser
  · rcases Nat.eq_zero_or_pos k with rfl | hpos
    · exact .inl (Nat.lt_of_lt_of_le hlooser (hsign other hk))
    · exact (hfirst k other hpos hk).imp_right fun ⟨hop, hle⟩ => ⟨hop, by omega⟩

end Solid
end Nesting
end ReversePolish
