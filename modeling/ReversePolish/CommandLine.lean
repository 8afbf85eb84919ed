import ReversePolish.Prompt
import ReversePolish.SelfTest
import ReversePolish.Usage

/-! The program as a function of its arguments and input. It answers the expression on the command line,
or runs the self-test, or holds a dialogue over the lines of its input. -/
namespace ReversePolish.CommandLine

structure Outcome where
  lines : List Text
  exitCode : Nat

def Outcome.stdout (o : Outcome) : Text := o.lines.flatMap fun line => line ++ ['\n']

/-- Said where no history can be loaded. The file of the history is assumed not to exist yet, whether it is the one
that `--history` names or the default one in the home directory. -/
def greeting : Text := "No history yet".toList

/-- The outcome of arguments that were understood. An empty word is an expression, no word is none. After a dialogue
the history is written; it is assumed that it can be, so the file that `--history` names has no effect on the outcome. -/
def perform (a : Arguments) (input : Text) : Outcome :=
  if a.has .selfTest then ⟨SelfTest.lines, if SelfTest.passed then 0 else 1⟩
  else if !a.words.isEmpty then ⟨Prompt.answer (a.has .rpn) (Text.joined a.words), 0⟩
  else
    ⟨(if a.has .skipSelfTest then [] else SelfTest.lines) ++
      greeting :: Prompt.dialogue (a.has .rpn) input, 0⟩

/-- A usage error is told elsewhere than on the standard output. -/
def run (args : List Text) (input : Text) : Outcome :=
  match Arguments.read args with
  | .usageError => ⟨[], 2⟩
  | .help => ⟨Usage.lines, 0⟩
  | .version => ⟨[Usage.version], 0⟩
  | .perform a => perform a input

def readsInput (args : List Text) : Bool :=
  match Arguments.read args with
  | .perform a => !a.has .selfTest && a.words.isEmpty
  | _ => false

end ReversePolish.CommandLine
