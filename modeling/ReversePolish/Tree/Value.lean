import ReversePolish.Tree
import ReversePolish.Literal

/-! The value of a tree whose leaves are all integer literals, by recursion and without a stack. -/
namespace ReversePolish
namespace Tree

def value? : Tree → Option Float
  | leaf text => if Literal.isLiteral text.trim then some (Literal.value text.trim) else none
  | node op lhs rhs =>
    match lhs.value?, rhs.value? with
    | some x, some y => some (op.apply x y)
    | _, _ => none

end Tree
end ReversePolish
