import ReversePolish.Tree.Written

/-! The loop over pieces writes what its pieces stand for, one after the other. So the written form of a node is
made of those of its operands. -/
namespace ReversePolish
namespace Tree

def Piece.owed : Piece → Text
  | tree t => t.bracketed
  | text s => s

theorem write_eq (pieces : List Piece) (written : Text) :
    write pieces written = written.reverse ++ pieces.flatMap Piece.owed := by
  fun_induction write pieces written with
  | case1 => simp
  | case2 s pieces written ih => simpa [Piece.owed] using ih
  | case3 text pieces written ih => simpa [Piece.owed, bracketed] using ih
  | case4 op lhs rhs pieces written ih => simpa [Piece.owed, bracketed] using ih

@[simp] theorem written_leaf (text : Text) : (leaf text).written = text := by
  simp [written, write_eq, Piece.owed, bracketed]

def body (op : Operator) (lhs rhs : Tree) : Text :=
  lhs.written ++ [' ', op.symbol, ' '] ++ rhs.written

@[simp] theorem written_node (op : Operator) (lhs rhs : Tree) :
    (node op lhs rhs).written = '(' :: body op lhs rhs ++ [')'] := by
  simp [written, write_eq, Piece.owed, bracketed, body]

end Tree
end ReversePolish
