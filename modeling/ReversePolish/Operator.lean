import ReversePolish.Text

/-! The five binary operators, their symbols and what they compute. The split order ranks them by how
loosely they bind, and no two of them bind alike. -/
namespace ReversePolish

inductive Operator where
  | add
  | sub
  | mul
  | div
  | pow
  deriving DecidableEq

namespace Operator

/-- Loosest first: a text splits at the earliest of these that it shows outside parentheses. -/
def splitOrder : List Operator := [add, sub, mul, div, pow]

def rank (op : Operator) : Nat := splitOrder.idxOf op

def symbol : Operator → Char
  | add => '+'
  | sub => '-'
  | mul => '*'
  | div => '/'
  | pow => '^'

def ofSymbol? (c : Char) : Option Operator := splitOrder.find? fun op => op.symbol == c

/-- A token is an operator if it is one symbol and nothing else. -/
def ofToken? : Text → Option Operator
  | [c] => ofSymbol? c
  | _ => none

def apply (op : Operator) (lhs rhs : Float) : Float :=
  match op with
  | add => lhs + rhs
  | sub => lhs - rhs
  | mul => lhs * rhs
  | div => lhs / rhs
  | pow => Float.pow lhs rhs

theorem mem_splitOrder (op : Operator) : op ∈ splitOrder := by
  cases op <;> decide

theorem rank_splitOrder : splitOrder.Pairwise fun f g => f.rank < g.rank := by
  decide

theorem rank_injective {f g : Operator} (h : f.rank = g.rank) : f = g := by
  cases f <;> cases g <;> first | rfl | cases h

@[simp] theorem ofSymbol?_symbol (op : Operator) : ofSymbol? op.symbol = some op := by
  cases op <;> rfl

@[simp] theorem ofToken?_symbol (op : Operator) : ofToken? [op.symbol] = some op :=
  ofSymbol?_symbol op

theorem symbol_of_ofSymbol? {c : Char} {op : Operator} (h : ofSymbol? c = some op) :
    op.symbol = c := by
  simpa using List.find?_some h

theorem eq_of_ofToken? {token : Text} {op : Operator} (h : ofToken? token = some op) :
    token = [op.symbol] := by
  match token with
  | [c] => rw [symbol_of_ofSymbol? h]

end Operator
end ReversePolish
