import ReversePolish.Proofs.DecimalText
import ReversePolish.Proofs.Dialogue
import ReversePolish.Proofs.Replay

/-! What is printed for one text. A tree that raises no fault on a fresh machine leaves one value there, so the lines
have one of three forms: why the text does not parse, its faults, or its value. How the last line begins tells which. -/
namespace ReversePolish
namespace Machine

theorem outcome_of_diagnostics {m : Machine} {fault : Fault} {later : List Fault}
    (h : m.diagnostics = fault :: later) : m.outcome = .error fault := by
  have hlast : m.faults.getLast? = some fault := by
    rw [← List.head?_reverse, ← diagnostics, h, List.head?_cons]
  rw [outcome, hlast]

end Machine

theorem Tree.crawl_fresh_cases (t : Tree) :
    (∃ fault later, (t.crawl Machine.submit .fresh).diagnostics = fault :: later) ∨
      ∃ x, t.crawl Machine.submit .fresh = ⟨[x], []⟩ := by
  cases hfaults : (t.crawl Machine.submit .fresh).diagnostics with
  | cons fault later => exact .inl ⟨fault, later, rfl⟩
  | nil =>
    have hleaves := leaves_of_crawl_fresh (List.reverse_eq_nil_iff.1 hfaults)
    exact .inr (exists_crawl_of_leaves hleaves .fresh)

namespace Prompt

def heading (showRpn : Bool) (line : Text) : List Text := if showRpn then [line] else []

inductive Form where
  | refusal
  | faults
  | value

namespace Form

def ofEvaluation : Except EvaluationError Float → Form
  | .error (.parse _) => refusal
  | .error (.run _) => faults
  | .ok _ => value

/-- The form of lines the last of which begins with this character. -/
def ofMark (c : Char) : Form := if c = 'S' then refusal else if c = '=' then value else faults

end Form

/-- The lines of each form. Faults come without a value, and a value without a fault. -/
def HasForm (showRpn : Bool) (s : Text) : Form → List Text → Prop
  | .refusal, lines => ∃ e : ParseError, lines = [e.message]
  | .faults, lines => ∃ line fault later, render s = .ok line ∧
    lines = heading showRpn line ++ (fault :: later).map Fault.message
  | .value, lines => ∃ line x value, render s = .ok line ∧ Binary64.Writes value x ∧
    lines = heading showRpn line ++ ["= ".toList ++ value]

theorem exists_message_eq (fault : Fault) :
    ∃ c rest, fault.message = c :: rest ∧ Form.ofMark c = .faults := by
  cases fault with
  | underflow op => exact ⟨'F', _, rfl, rfl⟩
  | unrecognized token => exact ⟨'U', _, rfl, rfl⟩
  | emptyStack => exact ⟨'N', _, rfl, rfl⟩

theorem HasForm.exists_last {showRpn : Bool} {s : Text} {form : Form} {lines : List Text}
    (h : HasForm showRpn s form lines) :
    ∃ front c rest, lines = front ++ [c :: rest] ∧ Form.ofMark c = form := by
  cases form with
  | refusal =>
    obtain ⟨⟨operand⟩, rfl⟩ := h
    exact ⟨[], 'S', _, rfl, rfl⟩
  | faults =>
    obtain ⟨line, fault, later, -, rfl⟩ := h
    obtain ⟨earlier, last, hlast⟩ :=
      (List.eq_nil_or_concat (fault :: later)).resolve_left (List.cons_ne_nil fault later)
    obtain ⟨c, rest, hmessage, hmark⟩ := exists_message_eq last
    refine ⟨heading showRpn line ++ earlier.map Fault.message, c, rest, ?_, hmark⟩
    rw [hlast, List.concat_eq_append, List.map_append, List.map_singleton, hmessage, List.append_assoc]
  | value =>
    obtain ⟨line, x, value, -, -, rfl⟩ := h
    exact ⟨heading showRpn line, '=', _, rfl, rfl⟩

theorem HasForm.unique {showRpn : Bool} {s : Text} {form other : Form} {lines : List Text}
    (h : HasForm showRpn s form lines) (hother : HasForm showRpn s other lines) : other = form := by
  obtain ⟨front, c, rest, rfl, rfl⟩ := h.exists_last
  obtain ⟨front', c', rest', hlines, rfl⟩ := hother.exists_last
  obtain ⟨-, hlast⟩ := List.append_inj' hlines rfl
  cases hlast
  rfl

theorem HasForm.ne_nil {showRpn : Bool} {s : Text} {form : Form} {lines : List Text}
    (h : HasForm showRpn s form lines) : lines ≠ [] := by
  obtain ⟨front, c, rest, rfl, -⟩ := h.exists_last
  simp

theorem answer_cases (showRpn : Bool) (s : Text) :
    (∃ e, evaluate s = .error (.parse e) ∧ answer showRpn s = [e.message]) ∨
    (∃ line m fault later, evaluate s = .error (.run fault) ∧ execute s = .ok (line, m) ∧
      m.diagnostics = fault :: later ∧
      answer showRpn s = heading showRpn line ++ (fault :: later).map Fault.message) ∨
    ∃ line x, evaluate s = .ok x ∧ execute s = .ok (line, ⟨[x], []⟩) ∧
      answer showRpn s = heading showRpn line ++ ["= ".toList ++ Binary64.text x] := by
  cases hparse : parse s with
  | error e =>
    refine .inl ⟨e, ?_, ?_⟩
    · rw [evaluate, execute, hparse]
      rfl
    · rw [answer, execute, hparse]
      rfl
  | ok t =>
    have hexecute := execute_of_parse hparse
    have heval := evaluate_of_parse hparse
    refine .inr ?_
    rcases t.crawl_fresh_cases with ⟨fault, later, hfaults⟩ | ⟨x, hx⟩
    · have houtcome := Machine.outcome_of_diagnostics hfaults
      rw [houtcome] at heval
      refine .inl ⟨t.rpn, _, fault, later, heval, hexecute, hfaults, ?_⟩
      rw [answer, hexecute]
      dsimp only
      rw [houtcome, hfaults]
      exact List.append_nil _
    · rw [hx] at heval hexecute
      refine .inr ⟨t.rpn, x, heval, hexecute, ?_⟩
      rw [answer, hexecute]
      show heading showRpn t.rpn ++ [] ++ ["= ".toList ++ Binary64.text x] = _
      rw [List.append_nil]

theorem render_of_execute {s line : Text} {m : Machine} (h : execute s = .ok (line, m)) :
    render s = .ok line := by
  obtain ⟨t, hparse, htraverse⟩ := Parse.map_eq_ok_iff.1 h
  rw [Tree.traverse_eq, Prod.mk.injEq] at htraverse
  rw [render_of_parse hparse, htraverse.1]

theorem hasForm_answer (showRpn : Bool) (s : Text) :
    HasForm showRpn s (.ofEvaluation (evaluate s)) (answer showRpn s) := by
  rcases answer_cases showRpn s with ⟨e, heval, hanswer⟩ |
    ⟨line, m, fault, later, heval, hexecute, -, hanswer⟩ | ⟨line, x, heval, hexecute, hanswer⟩
  · rw [heval]
    exact ⟨e, hanswer⟩
  · rw [heval]
    exact ⟨line, fault, later, render_of_execute hexecute, hanswer⟩
  · rw [heval]
    exact ⟨line, x, _, render_of_execute hexecute, Binary64.writes_text x, hanswer⟩

end Prompt

namespace CommandLine

/-- The arguments ask for the answer to a text, with its postfix line or without. Those that ask for help, for the
version or for the self-test do not, and no more do those that cannot be understood. -/
def Asks (args : List Text) (showRpn : Bool) (s : Text) : Prop :=
  ∃ a, Arguments.read args = .perform a ∧ a.has .selfTest = false ∧ a.words ≠ [] ∧
    a.has .rpn = showRpn ∧ Text.joined a.words = s

theorem Asks.run_eq {args : List Text} {showRpn : Bool} {s : Text} (h : Asks args showRpn s)
    (input : Text) : run args input = ⟨Prompt.answer showRpn s, 0⟩ := by
  obtain ⟨a, hread, hselfTest, hwords, rfl, rfl⟩ := h
  simp [run, hread, perform, hselfTest, hwords]

theorem asks_word (showRpn : Bool) (s : Text) :
    Asks (rpnArguments showRpn ++ [['-', '-'], s]) showRpn s := by
  refine ⟨_, read_word showRpn s, ?_, List.cons_ne_nil _ _, ?_, ?_⟩
  · cases showRpn <;> rfl
  · cases showRpn <;> rfl
  · simp [Text.joined]

/-- Asked for the answer to a text, in whatever arguments and whatever the input holds, the program prints at least
one line and exits with 0. What it prints has one form and no other, that of the evaluation: if the text does not parse,
the message alone; if there is a fault, the postfix line if it is wanted and all faults in the order raised, the first
of them the one that the evaluation gives; and if there is a value, the postfix line if it is wanted and the value, in a
text that is read as this number. -/
theorem run_prints_one_form (showRpn : Bool) (s : Text) :
    ∃ lines, (∃ args, Asks args showRpn s) ∧
      (∀ args, Asks args showRpn s → ∀ input, run args input = ⟨lines, 0⟩) ∧ lines ≠ [] ∧
      (∀ form, Prompt.HasForm showRpn s form lines ↔ form = .ofEvaluation (evaluate s)) ∧
      (∀ e, evaluate s = .error (.parse e) → lines = [e.message]) ∧
      (∀ fault, evaluate s = .error (.run fault) → ∃ line m later, execute s = .ok (line, m) ∧
        m.diagnostics = fault :: later ∧
        lines = Prompt.heading showRpn line ++ (fault :: later).map Fault.message) ∧
      ∀ x, evaluate s = .ok x → ∃ line, render s = .ok line ∧
        lines = Prompt.heading showRpn line ++ ["= ".toList ++ Binary64.text x] ∧
        Binary64.Writes (Binary64.text x) x := by
  have hform := Prompt.hasForm_answer showRpn s
  refine ⟨Prompt.answer showRpn s, ⟨_, asks_word showRpn s⟩, fun args h input => h.run_eq input,
    hform.ne_nil, fun form => ⟨fun h => hform.unique h, fun h => h ▸ hform⟩, ?_⟩
  rcases Prompt.answer_cases showRpn s with ⟨e, heval, hanswer⟩ |
    ⟨line, m, fault, later, heval, hexecute, hfaults, hanswer⟩ | ⟨line, x, heval, hexecute, hanswer⟩
  · rw [heval]
    refine ⟨?_, nofun, nofun⟩
    rintro _ ⟨⟩
    exact hanswer
  · rw [heval]
    refine ⟨nofun, ?_, nofun⟩
    rintro _ ⟨⟩
    exact ⟨line, m, later, hexecute, hfaults, hanswer⟩
  · rw [heval]
    refine ⟨nofun, nofun, ?_⟩
    rintro _ ⟨⟩
    exact ⟨line, Prompt.render_of_execute hexecute, hanswer, Binary64.writes_text _⟩

/-- A quotient has a value. Behind a missing operand the sum finds only one, so there are two faults. Whoever asks for
help asks for no answer. -/
theorem run_prints_one_form_each :
    (run ["--rpn".toList, ['1'], "/ 4".toList] []).lines = ["1 4 /".toList, "= 0.25".toList] ∧
    (run ["--rpn".toList, ['1'], ['+']] []).lines =
      ["1  +".toList, "Unrecognised symbol ".toList, "Failed to execute +".toList] ∧
    (run [['-', '-'], ['(']] []).lines = ["Syntax Error: unbalanced parentheses in '('".toList] ∧
    ¬∃ showRpn s, Asks ["--help".toList] showRpn s := by
  have hone : Parse.Reads "1 ".toList (.leaf ['1']) := .leaf (by decide) (by decide)
  have hfour : Parse.Reads " 4".toList (.leaf ['4']) := .leaf (by decide) (by decide)
  have hnone : Parse.Reads [] (.leaf []) := .leaf (by decide) (by decide)
  have hdiv : parse "1 / 4".toList = .ok (.node .div (.leaf ['1']) (.leaf ['4'])) :=
    Parse.parse_eq_ok_iff.2 (.node (by decide) (by decide) hone hfour)
  have hadd : parse "1 +".toList = .ok (.node .add (.leaf ['1']) (.leaf [])) :=
    Parse.parse_eq_ok_iff.2 (.node (by decide) (by decide) hone hnone)
  refine ⟨?_, ?_, ?_, ?_⟩
  · have hasks : Asks ["--rpn".toList, ['1'], "/ 4".toList] true "1 / 4".toList :=
      ⟨⟨[.rpn], [['1'], "/ 4".toList]⟩, rfl, rfl, List.cons_ne_nil _ _, rfl, rfl⟩
    have heval : evaluate "1 / 4".toList = .ok (Float.ofBits 0x3FD0000000000000) :=
      evaluate_of_value? hdiv (by decide +kernel)
    have hline : (Tree.node .div (.leaf ['1']) (.leaf ['4'])).rpn = "1 4 /".toList := by
      rw [Tree.rpn_eq]
      rfl
    have htext : Binary64.text (Float.ofBits 0x3FD0000000000000) = "0.25".toList := by decide +kernel
    obtain ⟨lines, -, hrun, -, -, -, -, hvalue⟩ := run_prints_one_form true "1 / 4".toList
    obtain ⟨line, hrender, hlines, -⟩ := hvalue _ heval
    rw [render_of_parse hdiv, hline] at hrender
    cases hrender
    rw [hrun _ hasks, hlines, htext]
    rfl
  · have hasks : Asks ["--rpn".toList, ['1'], ['+']] true "1 +".toList :=
      ⟨⟨[.rpn], [['1'], ['+']]⟩, rfl, rfl, List.cons_ne_nil _ _, rfl, rfl⟩
    have hcrawl : (Tree.node .add (.leaf ['1']) (.leaf [])).crawl Machine.submit .fresh =
        ⟨[], [.underflow .add, .unrecognized []]⟩ := by
      rw [Tree.crawl_node, Tree.crawl_leaf, Tree.crawl_leaf]
      rfl
    have hline : (Tree.node .add (.leaf ['1']) (.leaf [])).rpn = "1  +".toList := by
      rw [Tree.rpn_eq]
      rfl
    have heval : evaluate "1 +".toList = .error (.run (.unrecognized [])) := by
      rw [evaluate_of_parse hadd, hcrawl]
      rfl
    obtain ⟨lines, -, hrun, -, -, -, hfault, -⟩ := run_prints_one_form true "1 +".toList
    obtain ⟨line, m, later, hexecute, hfaults, hlines⟩ := hfault _ heval
    rw [execute_of_parse hadd, hcrawl, hline] at hexecute
    cases hexecute
    rw [hrun _ hasks, hlines, ← hfaults]
    rfl
  · have heval : evaluate ['('] = .error (.parse (.unbalanced ['('])) := rfl
    obtain ⟨lines, -, hrun, -, -, hrefused, -⟩ := run_prints_one_form false ['(']
    have hasks : Asks [['-', '-'], ['(']] false ['('] := asks_word false ['(']
    rw [hrun _ hasks, hrefused _ heval]
    rfl
  · rintro ⟨showRpn, s, a, hread, -⟩
    have hhelp : Arguments.read ["--help".toList] = .help := rfl
    rw [hhelp] at hread
    cases hread

end CommandLine
end ReversePolish
