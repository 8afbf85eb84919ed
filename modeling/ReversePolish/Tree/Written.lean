import ReversePolish.Tree

/-! The written form of a tree: every node in parentheses, its symbol between single spaces. It is
given by recursion and by a loop over the pieces still to be written. -/
namespace ReversePolish
namespace Tree

def bracketed : Tree → Text
  | leaf text => text
  | node op lhs rhs => ['('] ++ lhs.bracketed ++ [' ', op.symbol, ' '] ++ rhs.bracketed ++ [')']

/-- A piece of output: a tree to be written or a text to be copied. -/
inductive Piece where
  | tree (t : Tree)
  | text (s : Text)

namespace Piece

def weight : Piece → Nat
  | tree t => 5 * t.size
  | text _ => 1

def load : List Piece → Nat
  | [] => 0
  | piece :: pieces => piece.weight + load pieces

end Piece

/-- Writes the pieces in order after `written`, whose last character comes first. -/
def write : List Piece → (written : Text) → Text
  | [], written => written.reverse
  | .text s :: pieces, written => write pieces (s.reverse ++ written)
  | .tree (leaf text) :: pieces, written => write pieces (text.reverse ++ written)
  | .tree (node op lhs rhs) :: pieces, written =>
    write
      (.tree lhs :: .text [' '] :: .text [op.symbol] :: .text [' '] :: .tree rhs :: .text [')'] :: pieces)
      ('(' :: written)
termination_by pieces => Piece.load pieces
decreasing_by all_goals simp only [Piece.load, Piece.weight, size]; omega

def written (t : Tree) : Text := write [.tree t] []

end Tree
end ReversePolish
