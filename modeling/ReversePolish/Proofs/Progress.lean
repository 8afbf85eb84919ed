import ReversePolish.Proofs.Calls
import ReversePolish.Proofs.Level

/-! Why reading comes to an end. A split lies behind the first character of the rest that is no blank. So a left operand
is never blank, and what stands behind the split is less than the rest, also if it is a group and the loop goes on
inside it. -/
namespace ReversePolish
namespace Parse
namespace Stage

theorem exists_cut {stage : Stage} {turn : Turn} (h : stage.turn? = some turn) :
    ¬Text.Blank turn.operand ∧ ∃ c right start ahead,
      stage.rest = turn.operand ++ c :: right ∧ turn.next = enter right start ahead := by
  obtain ⟨position, op, ahead, c, right, hnext, hdrop, rfl⟩ := exists_of_turn? h
  have hcut : stage.rest = stage.rest.take (position - stage.start) ++ c :: right := by
    rw [← hdrop, List.take_append_drop]
  refine ⟨fun hblank => ?_, c, right, position + 1, ahead, hcut, rfl⟩
  -- a blank operand would be part of the blanks that the lead has passed
  have hlead := (Splits.exists_of_next hnext).1
  have hlength := congrArg List.length hcut
  have hblanks : (stage.rest.take (position - stage.start) ++ c :: right).takeWhile isBlank =
      stage.rest.take (position - stage.start) ++ (c :: right).takeWhile isBlank :=
    List.takeWhile_append_of_pos hblank
  rw [← hcut] at hblanks
  have hpassed := congrArg List.length hblanks
  simp only [List.length_append, List.length_take, List.length_cons] at hlength hpassed
  omega

theorem enter_cases {right : Text} {start : Nat} {ahead : Splits} {next : Stage}
    (h : enter right start ahead = .ok next) :
    (Nesting.inside? right.trimLeft = none ∧ next.rest = right) ∨
      ∃ inner, Nesting.inside? right.trimLeft = some inner ∧ next.rest = inner.trim := by
  unfold enter at h
  split at h
  · rename_i inner hinside
    obtain ⟨splits, -, rfl⟩ := map_eq_ok_iff.1 h
    exact .inr ⟨inner, hinside, rfl⟩
  · rename_i hinside
    cases h
    exact .inl ⟨hinside, rfl⟩

/-- A turn leaves a piece of the rest, and a shorter one, whichever way the loop goes on. -/
theorem next_shortens {stage next : Stage} {turn : Turn} (h : stage.turn? = some turn)
    (hnext : turn.next = .ok next) :
    ∃ (c : Char) (right : Text), stage.rest = turn.operand ++ c :: right ∧
      ((Nesting.inside? right.trimLeft = none ∧ next.rest = right) ∨
        ∃ inner, Nesting.inside? right.trimLeft = some inner ∧ next.rest = inner.trim) ∧
      next.rest <:+: stage.rest ∧ next.rest.length < stage.rest.length := by
  obtain ⟨-, c, right, start, ahead, hcut, henter⟩ := exists_cut h
  rw [henter] at hnext
  have hcases := enter_cases hnext
  have hright : right <:+: stage.rest := ⟨turn.operand ++ [c], [], by simp [hcut]⟩
  refine ⟨c, right, hcut, hcases, ?_, length_rest_lt h (henter ▸ hnext)⟩
  rcases hcases with ⟨-, hrest⟩ | ⟨inner, hinside, hrest⟩
  · rw [hrest]
    exact hright
  · have hgroup := (Nesting.inside?_eq_some_iff.1 hinside).1
    have hinner : inner <:+: Text.trimLeft right := ⟨['('], [')'], by rw [hgroup]; rfl⟩
    rw [hrest]
    exact (Text.infix_trim inner).trans (hinner.trans ((List.dropWhile_suffix _).isInfix.trans hright))

theorem operand_shortens {stage : Stage} {turn : Turn} (h : stage.turn? = some turn) :
    turn.operand <:+: stage.rest ∧ turn.operand.length < stage.rest.length ∧ ¬Text.Blank turn.operand := by
  obtain ⟨hblank, c, right, -, -, hcut, -⟩ := exists_cut h
  refine ⟨⟨[], c :: right, by rw [hcut, List.nil_append]⟩, ?_, hblank⟩
  rw [hcut, List.length_append, List.length_cons]
  omega

theorem Calls.shortens {stage : Stage} {operand : Text} (h : stage.Calls operand) :
    operand <:+: stage.rest ∧ operand.length < stage.rest.length ∧ ¬Text.Blank operand := by
  induction h with
  | now hturn => exact operand_shortens hturn
  | later hturn _ hnext _ ih =>
    obtain ⟨-, -, -, -, hpiece, hshorter⟩ := next_shortens hturn hnext
    obtain ⟨hoperand, hlength, hblank⟩ := ih
    exact ⟨hoperand.trans hpiece, hlength.trans hshorter, hblank⟩

/-- Where reading can go from a stage: into the call for the left operand of a turn, or on with the loop. -/
inductive Leads : Stage → Stage → Prop
  | call {stage : Stage} {turn : Turn} {splits : Splits} (hturn : stage.turn? = some turn)
    (hprepare : prepare (bare turn.operand) = .ok splits) : Leads stage ⟨bare turn.operand, 0, splits⟩
  | loop {stage next : Stage} {turn : Turn} (hturn : stage.turn? = some turn)
    (hnext : turn.next = .ok next) : Leads stage next

theorem Leads.length_lt {stage next : Stage} (h : Leads stage next) :
    next.rest.length < stage.rest.length := by
  cases h with
  | call hturn hprepare => exact (length_bare_le _).trans_lt (operand_shortens hturn).2.1
  | loop hturn hnext => exact length_rest_lt hturn hnext

end Stage

/-- Reading comes to an end: no text leads to stages without end, through calls and turns of the loop in whatever
order. Every call of the parser within a call gets a piece of the text of that call, which is shorter than it and not
blank. Every turn of the loop leaves a piece of what was to be read, which is shorter too, both where it goes on behind
the split and where it goes on inside a group that stands there. -/
theorem parse_terminates :
    (WellFounded fun next stage => Stage.Leads stage next) ∧
    (∀ s operand, Calls s operand →
      operand <:+: s ∧ operand.length < s.length ∧ ¬Text.Blank operand) ∧
    ∀ (stage next : Stage) (turn : Turn), stage.turn? = some turn → turn.next = .ok next →
      ∃ (c : Char) (right : Text), stage.rest = turn.operand ++ c :: right ∧
        ((Nesting.inside? right.trimLeft = none ∧ next.rest = right) ∨
          ∃ inner, Nesting.inside? right.trimLeft = some inner ∧ next.rest = inner.trim) ∧
        next.rest <:+: stage.rest ∧ next.rest.length < stage.rest.length := by
  refine ⟨?_, ?_, fun stage next turn => Stage.next_shortens⟩
  · exact Subrelation.wf Stage.Leads.length_lt (measure fun stage : Stage => stage.rest.length).wf
  · rintro s operand ⟨splits, -, hcalls⟩
    obtain ⟨hpiece, hshorter, hblank⟩ := hcalls.shortens
    exact ⟨hpiece.trans (infix_bare s), hshorter.trans_le (length_bare_le s), hblank⟩

/-- The loop goes on inside the group, and in there behind the split. -/
theorem parse_terminates_group :
    Calls "1+(2-3)".toList ['1'] ∧ ¬Text.Blank ['1'] ∧
    ∃ (stage inner last : Stage) (turn turn' : Turn),
      stage.turn? = some turn ∧ turn.next = .ok inner ∧ inner.rest = "2-3".toList ∧
      inner.rest.length < stage.rest.length ∧
      inner.turn? = some turn' ∧ turn'.next = .ok last ∧ last.rest = ['3'] ∧
      last.rest.length < inner.rest.length := by
  have hturn : Stage.turn? ⟨bare "1+(2-3)".toList, 0, .ofText "1+(2-3)".toList⟩ =
      some ⟨.add, ['1'], .ok ⟨"2-3".toList, 0, .ofText "2-3".toList⟩⟩ := rfl
  have hturn' : Stage.turn? ⟨"2-3".toList, 0, .ofText "2-3".toList⟩ =
      some ⟨.sub, ['2'], .ok ⟨['3'], 2, ((Splits.ofText "2-3".toList).next 0).2⟩⟩ := rfl
  have hcalls : Calls "1+(2-3)".toList ['1'] := ⟨_, rfl, .now hturn⟩
  obtain ⟨-, hoperand, hnext⟩ := parse_terminates
  obtain ⟨-, -, -, -, -, hshorter⟩ := hnext _ _ _ hturn rfl
  obtain ⟨-, -, -, -, -, hshorter'⟩ := hnext _ _ _ hturn' rfl
  exact ⟨hcalls, (hoperand _ _ hcalls).2.2, _, _, _, _, _, hturn, rfl, rfl, hshorter, hturn', rfl, rfl,
    hshorter'⟩

end Parse
end ReversePolish
