import ReversePolish.Proofs.Accepted
import ReversePolish.Proofs.Traversal
import ReversePolish.Proofs.Words
import ReversePolish.Session

/-! Replays. A machine reads the same from a token and from the trimmed token, so what a transcript keeps is enough
to run a session again. The words of a postfix line are enough if every token is one word: this is so when no leaf
is empty or has a blank in it, and a text that has a value has no such leaf. -/
namespace ReversePolish

namespace Machine

@[simp] theorem submit_trim (m : Machine) (token : Text) : m.submit token.trim = m.submit token := by
  simp [submit]

theorem foldl_submit_map_trim (tokens : List Text) (m : Machine) :
    (tokens.map Text.trim).foldl submit m = tokens.foldl submit m := by
  simp [List.foldl_map]

theorem run_map_trim (tokens : List Text) : run (tokens.map Text.trim) = run tokens := by
  rw [run, foldl_submit_map_trim, run]

end Machine

namespace Tree

theorem words_rpn (t : Tree) : t.rpn.words = t.postorder.flatMap Text.words := by
  rw [rpn_eq, Text.words_trim, Text.words_joined, List.flatMap_map]
  simp only [Text.words_trim]

/-- A symbol is always a word, so only a leaf can have none or several. -/
theorem flatMap_words_postorder {t : Tree} (h : ∀ text ∈ t.leaves, text.words = [text.trim]) :
    t.postorder.flatMap Text.words = t.postorder.map Text.trim := by
  induction t with
  | leaf text => simpa using h text (List.mem_singleton_self text)
  | node op lhs rhs ihlhs ihrhs =>
    obtain ⟨hlhs, hrhs⟩ := forall_mem_leaves_node.1 h
    have hsymbol : Text.words [op.symbol] = [[op.symbol]] :=
      Text.words_of_notBlank (List.cons_ne_nil _ _) (by simp)
    simp [ihlhs hlhs, ihrhs hrhs, hsymbol, Machine.trim_symbol]

theorem run_words_rpn {t : Tree} (h : ∀ text ∈ t.leaves, text.words = [text.trim]) :
    Machine.run t.rpn.words = (t.crawl Machine.submit .fresh).outcome := by
  rw [words_rpn, flatMap_words_postorder h, Machine.run_map_trim, Machine.run_postorder]

end Tree

theorem render_of_parse {s : Text} {t : Tree} (h : parse s = .ok t) : render s = .ok t.rpn := by
  rw [render, h]
  rfl

/-- The words of the postfix line of a text are the words of the tokens of its tree, one token after the other. If
no leaf is empty or has a blank in it, then these words run to the value or fault of the text. Whatever the leaves
are, a value of the text is also what the words run to. -/
theorem line_replays (s : Text) :
    (∀ t, parse s = .ok t → ∃ line, render s = .ok line ∧
      line.words = t.postorder.flatMap Text.words ∧
      ((∀ text ∈ t.leaves, text ≠ [] ∧ ∀ c ∈ text, isBlank c = false) →
        evaluate s = (Machine.run line.words).mapError .run)) ∧
    ∀ x, evaluate s = .ok x → ∃ line, render s = .ok line ∧ Machine.run line.words = .ok x := by
  constructor
  · intro t hparse
    refine ⟨t.rpn, render_of_parse hparse, t.words_rpn, fun hleaves => ?_⟩
    have hwords : ∀ text ∈ t.leaves, text.words = [text.trim] := by
      intro text htext
      obtain ⟨hne, hblank⟩ := hleaves text htext
      rw [Text.words_of_notBlank hne hblank, Text.trim_of_notBlank hblank]
    rw [evaluate_of_parse hparse, Tree.run_words_rpn hwords]
  · intro x hx
    obtain ⟨t, hparse, hleaves⟩ := exists_evaluate_iff.1 ⟨x, hx⟩
    have hwords : ∀ text ∈ t.leaves, text.words = [text.trim] := by
      intro text htext
      obtain ⟨hne, hblank⟩ := Literal.notBlank_of_isLiteral (hleaves text htext)
      rw [← Text.words_trim, Text.words_of_notBlank hne hblank]
    refine ⟨t.rpn, render_of_parse hparse, ?_⟩
    rw [evaluate_of_parse hparse, ← Tree.run_words_rpn hwords] at hx
    cases hrun : Machine.run t.rpn.words with
    | error fault => simp [hrun, Except.mapError] at hx
    | ok y => simpa [hrun, Except.mapError] using hx

/-- The sign stays with its digit, and the operator is a word of its own. -/
theorem line_replays_sign :
    parse "3 - -2".toList = .ok (.node .sub (.leaf ['3']) (.leaf ['-', '2'])) ∧
    (∀ text ∈ (Tree.node .sub (.leaf ['3']) (.leaf ['-', '2'])).leaves,
      text ≠ [] ∧ ∀ c ∈ text, isBlank c = false) ∧
    evaluate "3 - -2".toList = .ok (Literal.value ['3'] - Literal.value ['-', '2']) ∧
    ∃ line, render "3 - -2".toList = .ok line ∧ line.words = [['3'], ['-', '2'], ['-']] ∧
      evaluate "3 - -2".toList = (Machine.run line.words).mapError .run ∧
      Machine.run line.words = .ok (Literal.value ['3'] - Literal.value ['-', '2']) := by
  have hlhs : Parse.Reads "3 ".toList (.leaf ['3']) := .leaf (by decide) (by decide)
  have hrhs : Parse.Reads " -2".toList (.leaf ['-', '2']) := .leaf (by decide) (by decide)
  have hparse : parse "3 - -2".toList = .ok (.node .sub (.leaf ['3']) (.leaf ['-', '2'])) :=
    Parse.parse_eq_ok_iff.2 (.node (by decide) (by decide) hlhs hrhs)
  have hliteral : ∀ text ∈ (Tree.node .sub (.leaf ['3']) (.leaf ['-', '2'])).leaves,
      Literal.isLiteral text = true := by decide
  have hleaves : ∀ text ∈ (Tree.node .sub (.leaf ['3']) (.leaf ['-', '2'])).leaves,
      text ≠ [] ∧ ∀ c ∈ text, isBlank c = false :=
    fun text htext => Literal.notBlank_of_isLiteral (hliteral text htext)
  have hvalue : evaluate "3 - -2".toList = .ok (Literal.value ['3'] - Literal.value ['-', '2']) := by
    rw [evaluate_of_parse hparse, Tree.crawl_of_value? rfl]
    rfl
  obtain ⟨line, hline, hwords, hrun⟩ := (line_replays "3 - -2".toList).1 _ hparse
  obtain ⟨line', hline', hrun'⟩ := (line_replays "3 - -2".toList).2 _ hvalue
  cases hline.symm.trans hline'
  refine ⟨hparse, hleaves, hvalue, line, hline, ?_, hrun hleaves, hrun'⟩
  rw [hwords]
  decide

namespace Session

def Step.tokens : Step → List Text
  | submit token => [token]
  | feed text =>
    match parse text with
    | .error _ => []
    | .ok t => t.postorder

theorem step_feed_error {text : Text} {e : ParseError} (h : parse text = .error e) (s : Session) :
    s.step (.feed text) = (s, some (.error e)) := by
  rw [step, h]

theorem step_feed_ok {text : Text} {t : Tree} (h : parse text = .ok t) (s : Session) :
    s.step (.feed text) =
      (⟨t.crawl Machine.submit s.machine, t.crawl Transcript.submit s.transcript⟩, some (.ok t.rpn)) := by
  rw [step, h]
  simp [Tree.traverse_eq]

theorem step_fst (s : Session) (step : Step) :
    (s.step step).1 = ⟨step.tokens.foldl Machine.submit s.machine,
      step.tokens.foldl Transcript.submit s.transcript⟩ := by
  cases step with
  | submit token => rfl
  | feed text =>
    cases hparse : parse text with
    | error e => simp [step_feed_error hparse, Step.tokens, hparse]
    | ok t => simp [step_feed_ok hparse, Step.tokens, hparse, Tree.crawl_eq]

theorem run_eq (steps : List Step) (s : Session) :
    s.run steps = ⟨(steps.flatMap Step.tokens).foldl Machine.submit s.machine,
      (steps.flatMap Step.tokens).foldl Transcript.submit s.transcript⟩ := by
  induction steps generalizing s with
  | nil => rfl
  | cons step steps ih =>
    rw [run, List.foldl_cons, ← run, ih, step_fst]
    simp

theorem diagnostics_run (steps : List Step) (s : Session) :
    (s.run steps).machine.diagnostics = s.machine.diagnostics ++ (s.run steps).raisedSince s := by
  have hsuffix : s.machine.faults <:+ (s.run steps).machine.faults := by
    rw [run_eq]
    exact Machine.faults_suffix_run _ s.machine
  exact (List.prefix_iff_eq_append.1 (List.reverse_prefix.2 hsuffix)).symm

/-- The transcript of a session holds the trimmed tokens of its steps, and submitted to a fresh machine they lead to
the machine of the session, stack, faults and all. A text that does not parse leaves both as they are. -/
theorem transcript_replays (steps : List Step) :
    (start.run steps).transcript.tokens = (steps.flatMap Step.tokens).map Text.trim ∧
    (start.run steps).transcript.tokens.foldl Machine.submit .fresh = (start.run steps).machine ∧
    Machine.run (start.run steps).transcript.tokens = (start.run steps).machine.outcome ∧
    ∀ (s : Session) (text : Text) (e : ParseError), parse text = .error e →
      s.step (.feed text) = (s, some (.error e)) := by
  have htokens : (start.run steps).transcript.tokens = (steps.flatMap Step.tokens).map Text.trim := by
    simp [run_eq, Transcript.tokens_foldl, start]
  have hmachine : (start.run steps).transcript.tokens.foldl Machine.submit .fresh =
      (start.run steps).machine := by
    rw [htokens, Machine.foldl_submit_map_trim, run_eq]
    rfl
  refine ⟨htokens, hmachine, ?_, fun s text e h => step_feed_error h s⟩
  rw [Machine.run, hmachine]

/-- A text that does not parse, between a token with a blank and an operator that finds only one operand. -/
theorem transcript_replays_fault :
    (start.run [.submit [' ', '4'], .feed ['('], .submit ['+']]).transcript.tokens = [['4'], ['+']] ∧
    Machine.run [['4'], ['+']] = .error (.underflow .add) ∧
    (start.run [.submit [' ', '4'], .feed ['('], .submit ['+']]).machine.outcome =
      .error (.underflow .add) ∧
    parse ['('] = .error (.unbalanced ['(']) ∧
    start.step (.feed ['(']) = (start, some (.error (.unbalanced ['(']))) := by
  have hparse : parse ['('] = .error (.unbalanced ['(']) := rfl
  obtain ⟨htokens, -, houtcome, hfeed⟩ :=
    transcript_replays [.submit [' ', '4'], .feed ['('], .submit ['+']]
  have hkept : (start.run [.submit [' ', '4'], .feed ['('], .submit ['+']]).transcript.tokens =
      [['4'], ['+']] := by
    rw [htokens]
    simp only [List.flatMap_cons, List.flatMap_nil, Step.tokens, hparse]
    rfl
  rw [hkept] at houtcome
  exact ⟨hkept, rfl, houtcome.symm, hparse, hfeed start _ _ hparse⟩

end Session
end ReversePolish
