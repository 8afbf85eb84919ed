import ReversePolish.Proofs.Reading

/-! Which texts have a tree. Balance is tested anew for every operand, but the tests add up to two conditions
on the whole text: it closes as many parentheses as it opens, and no operator stands where more are closed
than opened. -/
namespace ReversePolish
namespace Nesting

/-- No operator of a text that begins at a level stands at a negative level. -/
def Guarded : (l : Int) → Text → Prop
  | _, [] => True
  | l, c :: s => (∀ op, c = Operator.symbol op → 0 ≤ l) ∧ Guarded (l + shift c) s

theorem guarded_append {l : Int} {x y : Text} :
    Guarded l (x ++ y) ↔ Guarded l x ∧ Guarded (l + level x) y := by
  induction x generalizing l with
  | nil => simp [Guarded]
  | cons c x ih =>
    rw [List.cons_append, Guarded, Guarded, ih, level_cons, and_assoc, Int.add_assoc]

theorem guarded_symbol {l : Int} {op : Operator} {y : Text} :
    Guarded l (op.symbol :: y) ↔ 0 ≤ l ∧ Guarded l y := by
  simp [Guarded]

theorem guarded_iff {l : Int} {s : Text} :
    Guarded l s ↔ ∀ x op y, s = x ++ Operator.symbol op :: y → 0 ≤ l + level x := by
  constructor
  · rintro h x op y rfl
    exact (guarded_symbol.1 (guarded_append.1 h).2).1
  · intro h
    induction s generalizing l with
    | nil => trivial
    | cons c s ih =>
      refine ⟨?_, ih fun x op y hs => ?_⟩
      · rintro op rfl
        simpa using h [] op s rfl
      · have hlevel := h (c :: x) op y (by rw [hs, List.cons_append])
        rwa [level_cons, ← Int.add_assoc] at hlevel

theorem guarded_blank {l : Int} {a : Text} (ha : Text.Blank a) : Guarded l a := by
  rw [guarded_iff]
  rintro x op y rfl
  exact absurd (by simp) (op.symbol_notMem_of_blank ha)

theorem guarded_of_enclosable {l : Int} {s : Text} (hl : 0 ≤ l) (h : Enclosable s) :
    Guarded l s := by
  rw [guarded_iff]
  rintro x op y rfl
  have hlevel := h x (List.prefix_append x _)
  omega

theorem guarded_trim {s : Text} : Guarded 0 s.trim ↔ Guarded 0 s := by
  obtain ⟨a, b, ha, hb, hs⟩ := Text.exists_trim s
  conv_rhs => rw [hs]
  simp [guarded_append, guarded_blank ha, guarded_blank hb, level_blank ha]

theorem guarded_of_inside {s inner : Text} (h : inside? s = some inner) : Guarded 0 s := by
  obtain ⟨rfl, hinner⟩ := inside?_eq_some_iff.1 h
  have hopen : ∀ op, '(' = Operator.symbol op → 0 ≤ (0 : Int) := fun _ _ => Int.le_refl 0
  have hclose : ∀ op, ')' ≠ Operator.symbol op := by
    intro op
    cases op <;> decide
  have hup : (0 : Int) ≤ 0 + shift '(' := by decide
  simp only [List.cons_append, Guarded, guarded_append, hclose, false_imp_iff, implies_true, and_true]
  exact ⟨hopen, guarded_of_enclosable hup hinner⟩

theorem guarded_stripOuter {s : Text} : Guarded 0 (stripOuter s) ↔ Guarded 0 s := by
  unfold stripOuter
  cases h : inside? s with
  | none => rfl
  | some inner =>
    have hinner := (inside?_eq_some_iff.1 h).2
    exact iff_of_true (guarded_of_enclosable (Int.le_refl 0) hinner) (guarded_of_inside h)

end Nesting

namespace Parse

open Nesting (level Guarded)

theorem guarded_bare {s : Text} : Guarded 0 (bare s) ↔ Guarded 0 s := by
  rw [bare, Nesting.guarded_trim, Nesting.guarded_stripOuter, Nesting.guarded_trim]

theorem Reads.guarded {s : Text} {t : Tree} (h : Reads s t) : Guarded 0 s := by
  induction h with
  | @leaf s hlevel hpoint =>
    rw [← guarded_bare, Nesting.guarded_iff]
    intro x op y hbare
    rw [hbare] at hpoint
    rw [Int.zero_add]
    by_cases hx : x = []
    · exact Int.le_of_eq (hx ▸ Nesting.level_nil.symm)
    · exact Int.le_of_lt (Nesting.level_pos_of_firstAfter?_eq_none hpoint hx)
  | node hbare hpoint hlhs hrhs ihlhs ihrhs =>
    rw [← guarded_bare, hbare, Nesting.guarded_append, Nesting.guarded_symbol, hlhs.level_eq]
    exact ⟨ihlhs, Int.le_refl 0, ihrhs⟩

/-- Both conditions pass from an operand to its parts, whichever its split point is. -/
theorem exists_reads {s : Text} (hlevel : level s = 0) (hguarded : Guarded 0 s) :
    ∃ t, Reads s t := by
  induction s using operand_induction with
  | unbalanced s hne => exact absurd hlevel hne
  | leaf s _ hpoint => exact ⟨_, .leaf hlevel hpoint⟩
  | node s x op y _ hbare hpoint hneg ihx ihy =>
    rw [← guarded_bare, hbare, Nesting.guarded_append, Nesting.guarded_symbol] at hguarded
    rw [← level_bare, hbare] at hlevel
    obtain ⟨hleft, hpos, hright⟩ := hguarded
    have hlhs : level x = 0 := by omega
    have hrhs : level y = 0 := by simpa [hlhs] using hlevel
    rw [hlhs] at hright
    obtain ⟨lhs, hlhs⟩ := ihx hlhs hleft
    obtain ⟨rhs, hrhs⟩ := ihy hrhs hright
    exact ⟨_, .node hbare hpoint hlhs hrhs⟩

theorem exists_parse_iff {s : Text} : (∃ t, parse s = .ok t) ↔ level s = 0 ∧ Guarded 0 s := by
  simp only [parse_eq_ok_iff]
  exact ⟨fun ⟨_, h⟩ => ⟨h.level_eq, h.guarded⟩, fun h => exists_reads h.1 h.2⟩

theorem exists_parse_of_inside {s inner : Text} (hlevel : level s = 0)
    (h : Nesting.inside? s.trim = some inner) : ∃ t, parse s = .ok t :=
  exists_parse_iff.2 ⟨hlevel, Nesting.guarded_trim.1 (Nesting.guarded_of_inside h)⟩

theorem exists_parse_iff_counts {s : Text} :
    (∃ t, parse s = .ok t) ↔ s.count '(' = s.count ')' ∧
      ∀ x op y, s = x ++ Operator.symbol op :: y → x.count ')' ≤ x.count '(' := by
  rw [exists_parse_iff, Nesting.guarded_iff]
  simp only [level, Int.zero_add]
  refine and_congr (by omega) (forall_congr' fun x => forall_congr' fun op => forall_congr' fun y => ?_)
  refine imp_congr_right fun _ => ?_
  omega

theorem exists_error_iff {s : Text} : (∃ e, parse s = .error e) ↔ ¬∃ t, parse s = .ok t := by
  cases parse s <;> simp

/-- A text fails exactly if its counts of the two parentheses differ or an operator has more closed than
opened before it. So every properly nested text has a tree, and a text with equal counts whose level turns
negative has one as long as no operator stands there. -/
theorem parse_fails_iff (s : Text) :
    ((∃ e, parse s = .error e) ↔ s.count '(' ≠ s.count ')' ∨
      ∃ x op y, s = x ++ Operator.symbol op :: y ∧ x.count '(' < x.count ')') ∧
    (Nesting.Nested s → ∃ t, parse s = .ok t) ∧
    (s.count '(' = s.count ')' → ((∃ t, parse s = .ok t) ↔
      ∀ x op y, s = x ++ Operator.symbol op :: y → x.count ')' ≤ x.count '(')) := by
  refine ⟨?_, fun h => ?_, fun h => ?_⟩
  · rw [exists_error_iff, exists_parse_iff_counts, not_and_or]
    simp only [not_forall, Nat.not_le, exists_prop]
  · exact exists_parse_iff.2
      ⟨h.level_eq, Nesting.guarded_of_enclosable (Int.le_refl 0) h.enclosable⟩
  · rw [exists_parse_iff_counts]
    exact and_iff_right h

example : parse ")(".toList = .ok (.leaf ")(".toList) := by cbv

end Parse
end ReversePolish
