import ReversePolish.Evaluation

/-! Built-in texts with the postfix lines they should give, and reports on how they fare. A text that
does not parse fails without a line to compare. -/
namespace ReversePolish.SelfTest

inductive Verdict where
  | passed
  | failed
  | mismatch (actual : Text)
  deriving DecidableEq

structure Report where
  input : Text
  verdict : Verdict

def cases : List (Text × Text) :=
  [("1 + 1", "1 1 +"),
    ("2 + (1 + 1)", "2 1 1 + +"),
    ("2 + (3 - 1)", "2 3 1 - +"),
    ("10000 / 10000", "10000 10000 /"),
    ("1 + (2 * 3) / 3", "1 2 3 * 3 / +"),
    ("2 ^ 2", "2 2 ^"),
    ("( 0 - 6 + ( 6 ^ 2 - 4 * 1 * 5 ) ^ (1 / 2) ) / ( 2 * 1)",
      "0 6 - 6 2 ^ 4 1 5 * * - 1 2 / ^ + 2 1 * /")].map
    fun (input, expected) => (input.toList, expected.toList)

def check (input expected : Text) : Report :=
  match render input with
  | .error _ => ⟨input, .failed⟩
  | .ok actual => ⟨input, if actual == expected then .passed else .mismatch actual⟩

def Verdict.text : Verdict → Text
  | passed => "PASSED".toList
  | failed => "FAILED".toList
  | mismatch actual => "FAILED, ".toList ++ actual

/-- The input in sixty columns, then the verdict. -/
def Report.line (r : Report) : Text := r.input.padRight 60 ++ ": ".toList ++ r.verdict.text

def reports : List Report := cases.map fun (input, expected) => check input expected

def passed : Bool := reports.all fun report => report.verdict == .passed

def bar : Text := List.replicate 70 '='

def title : Text := List.replicate 29 '=' ++ " UNIT TESTS ".toList ++ List.replicate 29 '='

def lines : List Text := [bar, title, bar] ++ reports.map Report.line ++ [bar]

end ReversePolish.SelfTest
