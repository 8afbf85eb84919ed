import ReversePolish.Evaluation

/-! A machine and a transcript that live through many steps. Each step submits one token to both, or
parses a text and, if that succeeds, feeds the tokens of its tree to both. -/
namespace ReversePolish

structure Session where
  machine : Machine
  transcript : Transcript

namespace Session

inductive Step where
  | submit (token : Text)
  | feed (text : Text)

def start : Session := ⟨.fresh, .empty⟩

/-- The session after a step, and for a feed its postfix line or why it could not be parsed. -/
def step (s : Session) : Step → Session × Option (Except ParseError Text)
  | .submit token => (⟨s.machine.submit token, s.transcript.submit token⟩, none)
  | .feed text =>
    match parse text with
    | .error e => (s, some (.error e))
    | .ok tree =>
      let (line, machine) := tree.traverse Machine.submit s.machine
      (⟨machine, tree.crawl Transcript.submit s.transcript⟩, some (.ok line))

def run (s : Session) (steps : List Step) : Session := steps.foldl (fun s step => (s.step step).1) s

def raisedSince (s earlier : Session) : List Fault :=
  s.machine.diagnostics.drop earlier.machine.diagnostics.length

end Session
end ReversePolish
