import ReversePolish.Parse
import ReversePolish.Machine
import ReversePolish.Transcript

/-! From a text to its postfix line and its value. The parse comes first, so a text whose parentheses do
not balance never reaches the machine. -/
namespace ReversePolish

inductive EvaluationError where
  | parse (e : ParseError)
  | run (fault : Fault)
  deriving DecidableEq

def EvaluationError.message : EvaluationError → Text
  | parse e => e.message
  | run fault => fault.message

def render (s : Text) : Except ParseError Text := (parse s).map Tree.rpn

/-- The postfix line of a text, and a fresh machine after its tokens. -/
def execute (s : Text) : Except ParseError (Text × Machine) :=
  (parse s).map (Tree.traverse Machine.submit Machine.fresh)

def evaluate (s : Text) : Except EvaluationError Float :=
  match execute s with
  | .error e => .error (.parse e)
  | .ok (_, machine) => machine.outcome.mapError .run

end ReversePolish
