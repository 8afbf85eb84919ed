import ReversePolish.Operator

/-! Binary trees of an expression: a leaf is a piece of text and a node an operator over two trees.
Chains make trees far deeper than they are wide, so functions that run on whole trees keep their
pending work in a list. -/
namespace ReversePolish

inductive Tree where
  | leaf (text : Text)
  | node (op : Operator) (lhs rhs : Tree)

namespace Tree

def ofText (text : Text) : Tree := leaf text.trim

def token : Tree → Text
  | leaf text => text
  | node op _ _ => [op.symbol]

def leaves : Tree → List Text
  | leaf text => [text]
  | node _ lhs rhs => lhs.leaves ++ rhs.leaves

def size : Tree → Nat
  | leaf _ => 1
  | node _ lhs rhs => lhs.size + rhs.size + 1

end Tree
end ReversePolish
