import ReversePolish.Parse

/-! The plain way to read a text: every operand, left or right, is stripped and searched afresh, position
by position. The loop over the right operands of a chain saves that work. -/
namespace ReversePolish
namespace Nesting

/-- Whether an operator stands at a position with no more parentheses opened than closed before it. -/
def exposes (s : Text) (op : Operator) (position : Nat) : Bool :=
  s[position]? == some op.symbol && (s.take position).count '(' ≤ (s.take position).count ')'

/-- The loosest operator exposed behind `lead`, and the leftmost of its kind. -/
def firstAfter? (lead : Nat) (s : Text) : Option (Nat × Operator) :=
  Operator.splitOrder.findSome? fun op =>
    ((List.range s.length).find? fun position =>
      lead < position && exposes s op position).map fun position => (position, op)

theorem firstAfter?_lt {lead position : Nat} {op : Operator} {s : Text}
    (h : firstAfter? lead s = some (position, op)) : position < s.length := by
  obtain ⟨_, _, hfind⟩ := List.exists_of_findSome?_eq_some h
  obtain ⟨found, hfound, heq⟩ := Option.map_eq_some_iff.1 hfind
  have hmem := List.mem_range.1 (List.mem_of_find?_eq_some hfound)
  cases heq
  exact hmem

end Nesting

namespace Parse

def recursive (s : Text) : Except ParseError Tree :=
  if Nesting.balanced (bare s) then
    match _hpoint : Nesting.firstAfter? 0 (bare s) with
    | none => .ok (.leaf (bare s))
    | some (position, op) =>
      match recursive ((bare s).take position) with
      | .error e => .error e
      | .ok lhs =>
        match recursive ((bare s).drop (position + 1)) with
        | .error e => .error e
        | .ok rhs => .ok (.node op lhs rhs)
  else .error (.unbalanced (bare s))
termination_by s.length
decreasing_by
  all_goals
    have hbare := length_bare_le s
    have hlt := Nesting.firstAfter?_lt _hpoint
    simp only [List.length_take, List.length_drop]
    omega

end Parse
end ReversePolish
