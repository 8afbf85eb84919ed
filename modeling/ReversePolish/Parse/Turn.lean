import ReversePolish.Parse

/-! One turn of the loop over a chain, by itself. A turn reads a left operand in a call of its own, and the loop goes on
behind the operator or inside the group that stands there. -/
namespace ReversePolish
namespace Parse

/-- Where the loop stands: what is left of an operand, the position at which that begins, and the split points of the
whole operand. -/
structure Stage where
  rest : Text
  start : Nat
  splits : Splits

structure Turn where
  op : Operator
  operand : Text
  next : Except ParseError Stage

namespace Stage

/-- Where the loop goes on with a right operand: inside it if it is one group, else with the split points there are. -/
def enter (right : Text) (start : Nat) (ahead : Splits) : Except ParseError Stage :=
  match Nesting.inside? (Text.trimLeft right) with
  | some inner => (prepare (Text.trim inner)).map fun splits => ⟨Text.trim inner, 0, splits⟩
  | none => .ok ⟨right, start, ahead⟩

def turn? (stage : Stage) : Option Turn :=
  match stage.splits.next (stage.start + (stage.rest.takeWhile isBlank).length) with
  | (none, _) => none
  | (some (position, op), ahead) =>
    match stage.rest.drop (position - stage.start) with
    | [] => none
    | _ :: right =>
      some ⟨op, stage.rest.take (position - stage.start), enter right (position + 1) ahead⟩

def read (stage : Stage) (chain : List (Operator × Tree)) : Except ParseError Tree :=
  spine stage.rest stage.start stage.splits chain

theorem exists_of_turn? {stage : Stage} {turn : Turn} (h : stage.turn? = some turn) :
    ∃ position op ahead c right,
      stage.splits.next (stage.start + (stage.rest.takeWhile isBlank).length) =
        (some (position, op), ahead) ∧
      stage.rest.drop (position - stage.start) = c :: right ∧
      turn = ⟨op, stage.rest.take (position - stage.start), enter right (position + 1) ahead⟩ := by
  unfold turn? at h
  split at h
  · cases h
  · rename_i position op ahead hnext
    split at h
    · cases h
    · rename_i c right hdrop
      cases h
      exact ⟨position, op, ahead, c, right, hnext, hdrop, rfl⟩

theorem length_enter_le {right : Text} {start : Nat} {ahead : Splits} {next : Stage}
    (h : enter right start ahead = .ok next) : next.rest.length ≤ right.length := by
  unfold enter at h
  split at h
  · rename_i inner hinside
    obtain ⟨splits, -, rfl⟩ := map_eq_ok_iff.1 h
    have hinner := Nesting.length_inside?_lt hinside
    have htrim := Text.length_trim_le inner
    have hleft := Text.length_trimLeft_le right
    show (Text.trim inner).length ≤ right.length
    omega
  · cases h
    exact Nat.le_refl _

/-- Every turn leaves less to be read, also when it goes on inside a group. -/
theorem length_rest_lt {stage next : Stage} {turn : Turn} (h : stage.turn? = some turn)
    (hnext : turn.next = .ok next) : next.rest.length < stage.rest.length := by
  obtain ⟨position, op, ahead, c, right, -, hdrop, rfl⟩ := exists_of_turn? h
  have hright := length_right_lt hdrop
  have henter := length_enter_le hnext
  omega

theorem read_leaf {stage : Stage} (h : stage.turn? = none) (chain : List (Operator × Tree)) :
    stage.read chain = .ok (join chain (.ofText stage.rest)) := by
  rw [read, spine_eq]
  unfold turn? at h
  rcases hnext : stage.splits.next (stage.start + (stage.rest.takeWhile isBlank).length) with
    ⟨_ | ⟨position, op⟩, ahead⟩
  · rfl
  · rw [hnext] at h
    dsimp only at h ⊢
    cases hdrop : stage.rest.drop (position - stage.start) with
    | nil => rfl
    | cons c right =>
      rw [hdrop] at h
      cases h

theorem read_turn {stage : Stage} {turn : Turn} (h : stage.turn? = some turn)
    (chain : List (Operator × Tree)) :
    stage.read chain = (parse turn.operand).bind fun lhs =>
      turn.next.bind fun next => next.read ((turn.op, lhs) :: chain) := by
  obtain ⟨position, op, ahead, c, right, hnext, hdrop, rfl⟩ := exists_of_turn? h
  rw [read, spine_eq, hnext]
  simp only [hdrop, enter]
  cases parse (stage.rest.take (position - stage.start)) with
  | error e => rfl
  | ok lhs =>
    cases Nesting.inside? (Text.trimLeft right) with
    | none => rfl
    | some inner => cases hprepare : prepare (Text.trim inner) <;> simp only [hprepare] <;> rfl

theorem turn_induction {motive : Stage → Prop}
    (leaf : ∀ stage : Stage, stage.turn? = none → motive stage)
    (turn : ∀ (stage : Stage) (turn : Turn), stage.turn? = some turn →
      (∀ next, turn.next = .ok next → motive next) → motive stage)
    (stage : Stage) : motive stage := by
  induction hn : stage.rest.length using Nat.strongRecOn generalizing stage with
  | ind n ih =>
    cases hturn : stage.turn? with
    | none => exact leaf stage hturn
    | some next =>
      exact turn stage next hturn fun stage' hnext =>
        ih _ (hn ▸ length_rest_lt hturn hnext) stage' rfl

end Stage

theorem parse_eq_read (s : Text) :
    parse s = (prepare (bare s)).bind fun splits => Stage.read ⟨bare s, 0, splits⟩ [] := by
  rw [parse]
  cases prepare (bare s) <;> rfl

end Parse
end ReversePolish
