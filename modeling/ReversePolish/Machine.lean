import ReversePolish.Operator
import ReversePolish.Binary64.Reading

/-! A stack machine fed one postfix token at a time. A bad token raises a fault and the machine goes on
with what is left of its stack, but the first fault is then its outcome for good. -/
namespace ReversePolish

inductive Fault where
  /-- An operator found fewer than two operands. -/
  | underflow (op : Operator)
  /-- A token is neither an operator nor an integer literal. -/
  | unrecognized (token : Text)
  /-- No value is left to be the outcome. -/
  | emptyStack
  deriving DecidableEq

def Fault.message : Fault → Text
  | underflow op => "Failed to execute ".toList ++ [op.symbol]
  | unrecognized token => "Unrecognised symbol ".toList ++ token
  | emptyStack => "Nothing left on the stack".toList

/-- The stack has its top first, and the faults raised so far the latest first. -/
structure Machine where
  stack : List Float
  faults : List Fault

namespace Machine

def fresh : Machine := ⟨[], []⟩

def diagnostics (m : Machine) : List Fault := m.faults.reverse

def failed (m : Machine) : Bool := !m.faults.isEmpty

def raise (m : Machine) (fault : Fault) : Machine := { m with faults := fault :: m.faults }

def push (m : Machine) (x : Float) : Machine := { m with stack := x :: m.stack }

/-- Replaces two operands, the right one on top, by the value of the operator. A single operand is lost
in the attempt. -/
def operate (m : Machine) (op : Operator) : Machine :=
  match m.stack with
  | rhs :: lhs :: below => { m with stack := op.apply lhs rhs :: below }
  | _ => { m with stack := [] }.raise (.underflow op)

/-- Outer blanks of a token do not count. A lone sign is an operator. Only an integer literal is read as a number,
although other texts could be. -/
def submit (m : Machine) (token : Text) : Machine :=
  match Operator.ofToken? token.trim with
  | some op => m.operate op
  | none =>
    if Literal.isLiteral token.trim then
      match Binary64.ofText? token.trim with
      | some x => m.push x
      | none => m.raise (.unrecognized token.trim)
    else m.raise (.unrecognized token.trim)

/-- The first fault, or the top of the stack. -/
def outcome (m : Machine) : Except Fault Float :=
  match m.faults.getLast?, m.stack with
  | some fault, _ => .error fault
  | none, top :: _ => .ok top
  | none, [] => .error .emptyStack

def run (tokens : List Text) : Except Fault Float := (tokens.foldl submit fresh).outcome

end Machine
end ReversePolish
