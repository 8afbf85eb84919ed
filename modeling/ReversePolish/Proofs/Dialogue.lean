import Mathlib.Data.List.TakeWhile
import ReversePolish.CommandLine

/-! The dialogue line by line. An input is a list of lines in one way only, and the dialogue answers the lines before
the first blank one, each as the program answers it on its command line. -/
namespace ReversePolish
namespace Prompt

/-- The lines of an input. A line is ended by a newline, with the carriage return before it if there is one. What
follows the last end is a line of its own, unless it is empty. -/
inductive Lines : Text → List Text → Prop
  | nil : Lines [] []
  | unended {line : Text} (hne : line ≠ []) (hline : '\n' ∉ line) : Lines line [line]
  | newline {line left : Text} {lines : List Text} (hline : '\n' ∉ line)
    (hreturn : line.getLast? ≠ some '\r') (hleft : Lines left lines) :
    Lines (line ++ '\n' :: left) (line :: lines)
  | returnNewline {line left : Text} {lines : List Text} (hline : '\n' ∉ line)
    (hleft : Lines left lines) : Lines (line ++ '\r' :: '\n' :: left) (line :: lines)

theorem dropReturn_of_getLast? {line : Text} (h : line.getLast? ≠ some '\r') : dropReturn line = line :=
  if_neg h

@[simp] theorem dropReturn_append_return (line : Text) : dropReturn (line ++ ['\r']) = line := by
  simp [dropReturn]

theorem forall_mem_ne_newline {s : Text} (h : '\n' ∉ s) : ∀ c ∈ s, (c != '\n') = true := by
  intro c hc
  have hne : c ≠ '\n' := ne_of_mem_of_not_mem hc h
  simpa using hne

theorem readLine?_unended {line : Text} (hne : line ≠ []) (hline : '\n' ∉ line) :
    readLine? line = some (line, []) := by
  have hdrop : line.dropWhile (· != '\n') = [] :=
    List.dropWhile_eq_nil_iff.2 (forall_mem_ne_newline hline)
  simp [readLine?, hdrop, hne]

theorem readLine?_newline {line : Text} (hline : '\n' ∉ line) (left : Text) :
    readLine? (line ++ '\n' :: left) = some (dropReturn line, left) := by
  have hdrop : (line ++ '\n' :: left).dropWhile (· != '\n') = '\n' :: left := by
    rw [List.dropWhile_append_of_pos (forall_mem_ne_newline hline)]
    rfl
  have htake : (line ++ '\n' :: left).takeWhile (· != '\n') = line := by
    rw [List.takeWhile_append_of_pos (forall_mem_ne_newline hline)]
    simp
  simp [readLine?, hdrop, htake]

/-- Of two carriage returns before a newline one is the text's. -/
example : readLine? ['1', '\r', '\r', '\n', '2'] = some (['1', '\r'], ['2']) := rfl

theorem Lines.readLine?_nil {input : Text} (h : Lines input []) : readLine? input = none := by
  cases h
  rfl

theorem Lines.readLine?_cons {input line : Text} {later : List Text} (h : Lines input (line :: later)) :
    ∃ left, readLine? input = some (line, left) ∧ Lines left later := by
  cases h with
  | unended hne hline => exact ⟨[], readLine?_unended hne hline, .nil⟩
  | @newline line left later hline hreturn hleft =>
    refine ⟨left, ?_, hleft⟩
    rw [readLine?_newline hline, dropReturn_of_getLast? hreturn]
  | @returnNewline line left later hline hleft =>
    refine ⟨left, ?_, hleft⟩
    have hreturn : '\n' ∉ line ++ ['\r'] := by simp [hline]
    have hread := readLine?_newline hreturn left
    rwa [List.append_assoc, dropReturn_append_return] at hread

theorem Lines.unique {input : Text} {lines other : List Text} (h : Lines input lines)
    (hother : Lines input other) : other = lines := by
  induction lines generalizing input other with
  | nil =>
    cases other with
    | nil => rfl
    | cons line later =>
      obtain ⟨left, hread, -⟩ := hother.readLine?_cons
      simp [h.readLine?_nil] at hread
  | cons line lines ih =>
    obtain ⟨left, hread, hleft⟩ := h.readLine?_cons
    cases other with
    | nil => simp [hother.readLine?_nil] at hread
    | cons line' later =>
      obtain ⟨left', hread', hleft'⟩ := hother.readLine?_cons
      rw [hread] at hread'
      cases hread'
      rw [ih hleft hleft']

theorem exists_lines (input : Text) : ∃ lines, Lines input lines := by
  induction hn : input.length using Nat.strong_induction_on generalizing input with
  | h n ih =>
    by_cases hmem : '\n' ∈ input
    · obtain ⟨ended, left, rfl, hended⟩ := List.eq_append_cons_of_mem hmem
      obtain ⟨lines, hleft⟩ := ih left.length (by simp [← hn]; omega) left rfl
      by_cases hreturn : ended.getLast? = some '\r'
      · obtain ⟨line, rfl⟩ := List.getLast?_eq_some_iff.1 hreturn
        rw [List.append_assoc]
        exact ⟨line :: lines, .returnNewline (fun h => hended (List.mem_append_left _ h)) hleft⟩
      · exact ⟨ended :: lines, .newline hended hreturn hleft⟩
    · by_cases hne : input = []
      · exact ⟨[], hne ▸ .nil⟩
      · exact ⟨[input], .unended hne hmem⟩

theorem converse_end {left : Text} (h : readLine? left = none) (showRpn : Bool) (printed : List Text) :
    converse showRpn left printed = printed.reverse ++ [[]] := by
  rw [converse]
  split
  · simp
  · rename_i hread
    simp [h] at hread

theorem converse_line {left line later : Text} (h : readLine? left = some (line, later))
    (showRpn : Bool) (printed : List Text) :
    converse showRpn left printed =
      if line.trim.isEmpty then printed.reverse ++ [[]]
      else converse showRpn later ((answer showRpn line).reverse ++ [] :: printed) := by
  rw [converse]
  split
  · rename_i hread
    simp [h] at hread
  · rename_i hread
    rw [h] at hread
    cases hread
    simp

/-- One turn answers one line and passes nothing on but what is left of the input. So each of the lines before the
first blank one is answered on its own. -/
theorem converse_eq {left : Text} {lines : List Text} (h : Lines left lines) (showRpn : Bool)
    (printed : List Text) :
    converse showRpn left printed = printed.reverse ++
      (lines.takeWhile fun line => !line.trim.isEmpty).flatMap (fun line => [] :: answer showRpn line) ++
        [[]] := by
  induction lines generalizing left printed with
  | nil => simp [converse_end h.readLine?_nil]
  | cons line lines ih =>
    obtain ⟨later, hread, hlater⟩ := h.readLine?_cons
    rw [converse_line hread]
    by_cases hblank : line.trim.isEmpty = true
    · simp [hblank]
    · simp [hblank, ih hlater]

end Prompt

namespace CommandLine

def rpnArguments (showRpn : Bool) : List Text := if showRpn then ["--rpn".toList] else []

theorem read_dialogue (showRpn : Bool) :
    Arguments.read ("--no-selftest".toList :: rpnArguments showRpn) =
      .perform ⟨if showRpn then [.rpn, .skipSelfTest] else [.skipSelfTest], []⟩ := by
  cases showRpn <;> rfl

theorem read_selfTest_dialogue (showRpn : Bool) :
    Arguments.read (rpnArguments showRpn) = .perform ⟨if showRpn then [.rpn] else [], []⟩ := by
  cases showRpn <;> rfl

/-- Whatever a word looks like, behind the mark that ends the switches it is the expression. -/
theorem read_word (showRpn : Bool) (word : Text) :
    Arguments.read (rpnArguments showRpn ++ [['-', '-'], word]) =
      .perform ⟨if showRpn then [.rpn] else [], [word]⟩ := by
  cases showRpn <;> rfl

theorem read_selfTest : Arguments.read ["--selftest".toList] = .perform ⟨[.selfTest], []⟩ := rfl

theorem run_dialogue (showRpn : Bool) (input : Text) :
    run ("--no-selftest".toList :: rpnArguments showRpn) input =
      ⟨greeting :: Prompt.dialogue showRpn input, 0⟩ := by
  rw [run, read_dialogue]
  cases showRpn <;> simp [perform, Arguments.has]

theorem run_selfTest_dialogue (showRpn : Bool) (input : Text) :
    run (rpnArguments showRpn) input =
      ⟨SelfTest.lines ++ greeting :: Prompt.dialogue showRpn input, 0⟩ := by
  rw [run, read_selfTest_dialogue]
  cases showRpn <;> simp [perform, Arguments.has]

theorem run_word (showRpn : Bool) (word input : Text) :
    run (rpnArguments showRpn ++ [['-', '-'], word]) input = ⟨Prompt.answer showRpn word, 0⟩ := by
  rw [run, read_word]
  cases showRpn <;> simp [perform, Arguments.has, Text.joined]

theorem lines_run_selfTest (input : Text) : (run ["--selftest".toList] input).lines = SelfTest.lines := by
  rw [run, read_selfTest]
  simp [perform, Arguments.has]

/-- Every input is a list of lines in one way. A dialogue over it greets, then prints for each line before the first
blank one an empty line and what the program prints for that line on its command line. The lines after the blank one
count for nothing. It ends with an empty line and the exit code 0, and unless the self-test is skipped, the same
follows what the self-test prints. -/
theorem dialogue_repeats_answers (showRpn : Bool) (input : Text) :
    ∃ lines, (∀ other, Prompt.Lines input other ↔ other = lines) ∧
      run ("--no-selftest".toList :: rpnArguments showRpn) input =
        ⟨"No history yet".toList :: (lines.takeWhile fun line => !line.trim.isEmpty).flatMap
          (fun line => [] :: (run (rpnArguments showRpn ++ [['-', '-'], line]) []).lines) ++ [[]], 0⟩ ∧
      run (rpnArguments showRpn) input =
        ⟨(run ["--selftest".toList] []).lines ++
          (run ("--no-selftest".toList :: rpnArguments showRpn) input).lines, 0⟩ := by
  obtain ⟨lines, hlines⟩ := Prompt.exists_lines input
  refine ⟨lines, fun other => ⟨fun hother => hlines.unique hother, fun hother => hother ▸ hlines⟩, ?_, ?_⟩
  · show run _ input = ⟨greeting :: _ ++ [[]], 0⟩
    rw [run_dialogue, Prompt.dialogue, Prompt.converse_eq hlines]
    simp only [run_word, List.reverse_nil, List.nil_append, List.cons_append]
  · rw [run_dialogue, run_selfTest_dialogue, lines_run_selfTest]

end CommandLine
end ReversePolish
