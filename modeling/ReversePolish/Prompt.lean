import ReversePolish.Evaluation
import ReversePolish.Binary64.Decimal

/-! What is printed for a text, and for an input of many lines each of which is such a text. The first
line that is blank ends the dialogue, and so does the end of the input. -/
namespace ReversePolish.Prompt

/-- The lines printed for one text: why it does not parse, or its postfix line if that is wanted, then
its faults or its value. -/
def answer (showRpn : Bool) (s : Text) : List Text :=
  match execute s with
  | .error e => [e.message]
  | .ok (line, machine) =>
    (if showRpn then [line] else []) ++ machine.diagnostics.map Fault.message ++
      match machine.outcome with
      | .ok x => ["= ".toList ++ Binary64.text x]
      | .error _ => []

def dropReturn (line : Text) : Text := if line.getLast? = some '\r' then line.dropLast else line

/-- The next line of an input without its end, and what is left of the input. The last line need not be ended. The
input is assumed to come from a file or a pipe: at a terminal, lines are edited and a prompt is shown. -/
def readLine? (input : Text) : Option (Text × Text) :=
  match input.dropWhile (· != '\n') with
  | _ :: left => some (dropReturn (input.takeWhile (· != '\n')), left)
  | [] => if input.isEmpty then none else some (input, [])

theorem length_readLine?_lt {input line left : Text} (h : readLine? input = some (line, left)) :
    left.length < input.length := by
  have hdrop := (List.dropWhile_sublist (· != '\n') (l := input)).length_le
  unfold readLine? at h
  split at h
  · rename_i c rest hrest
    cases h
    rw [hrest, List.length_cons] at hdrop
    omega
  · split at h
    · cases h
    · rename_i hne
      cases h
      exact List.length_pos_iff.2 (by simpa using hne)

/-- Answers line after line of what is left of the input. The lines printed so far are given with the last one
first, and an empty one is printed before each reading, also before the one that ends the dialogue. -/
def converse (showRpn : Bool) (left : Text) (printed : List Text) : List Text :=
  match _hline : readLine? left with
  | none => ([] :: printed).reverse
  | some (line, left) =>
    if line.trim.isEmpty then ([] :: printed).reverse
    else converse showRpn left ((answer showRpn line).reverse ++ [] :: printed)
termination_by left.length
decreasing_by exact length_readLine?_lt _hline

def dialogue (showRpn : Bool) (input : Text) : List Text := converse showRpn input []

end ReversePolish.Prompt
