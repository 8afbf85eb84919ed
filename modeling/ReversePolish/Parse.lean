import ReversePolish.Splits
import ReversePolish.Tree

/-! Reading a text as a tree. An operand loses one outer pair of parentheses and splits at the leftmost
exposed operator of the loosest kind, an operator in front of everything else being a sign. Right
operands are read by a loop that keeps the positions it has found; only left operands nest. -/
namespace ReversePolish

inductive ParseError where
  /-- The operand does not close as many parentheses as it opens. -/
  | unbalanced (operand : Text)
  deriving DecidableEq

def ParseError.message : ParseError → Text
  | unbalanced operand =>
    "Syntax Error: unbalanced parentheses in '".toList ++ operand ++ ['\'']

namespace Parse

/-- An operand without outer blanks, one outer pair of parentheses and the blanks inside it. -/
def bare (s : Text) : Text := Text.trim (Nesting.stripOuter s.trim)

def prepare (s : Text) : Except ParseError Splits :=
  if Nesting.balanced s then .ok (Splits.ofText s) else .error (.unbalanced s)

/-- Hangs the operators and left operands of a chain, the last one first, over its last operand. -/
def join (chain : List (Operator × Tree)) (last : Tree) : Tree :=
  chain.foldl (fun rhs link => .node link.1 link.2 rhs) last

section Except

variable {α β : Type} {reading : Except ParseError α} {b : β}

theorem bind_eq_ok_iff {f : α → Except ParseError β} :
    reading.bind f = .ok b ↔ ∃ a, reading = .ok a ∧ f a = .ok b := by
  cases reading <;> simp [Except.bind]

theorem map_eq_ok_iff {f : α → β} : reading.map f = .ok b ↔ ∃ a, reading = .ok a ∧ f a = b := by
  cases reading <;> simp [Except.map]

end Except

theorem length_bare_le (s : Text) : (bare s).length ≤ s.length :=
  Nat.le_trans (Text.length_trim_le _)
    (Nat.le_trans (Nesting.length_stripOuter_le _) (Text.length_trim_le s))

theorem length_right_lt {rest right : Text} {c : Char} {n : Nat} (h : rest.drop n = c :: right) :
    right.length < rest.length := by
  have hlen := congrArg List.length h
  simp only [List.length_drop, List.length_cons] at hlen
  omega

theorem length_left_lt {rest right : Text} {c : Char} {n : Nat} (h : rest.drop n = c :: right) :
    (bare (rest.take n)).length < rest.length := by
  have hbare := length_bare_le (rest.take n)
  have hlen := congrArg List.length h
  simp only [List.length_drop, List.length_cons] at hlen
  simp only [List.length_take] at hbare
  omega

theorem length_inner_lt {rest right inner : Text} {c : Char} {n : Nat}
    (h : rest.drop n = c :: right) (hi : Nesting.inside? (Text.trimLeft right) = some inner) :
    (Text.trim inner).length < rest.length := by
  have hinner := Nesting.length_inside?_lt hi
  have htrim := Text.length_trim_le inner
  have hleft := Text.length_trimLeft_le right
  have hright := length_right_lt h
  omega

/-- Reads the rest of a chain, which begins at position `start` of the operand that `splits` are of. -/
def spine (rest : Text) (start : Nat) (splits : Splits) (chain : List (Operator × Tree)) :
    Except ParseError Tree :=
  match splits.next (start + (rest.takeWhile isBlank).length) with
  | (none, _) => .ok (join chain (.ofText rest))
  | (some (position, op), ahead) =>
    match _hsplit : rest.drop (position - start) with
    | [] => .ok (join chain (.ofText rest))
    | _ :: right =>
      match prepare (bare (rest.take (position - start))) with
      | .error e => .error e
      | .ok splits' =>
        match spine (bare (rest.take (position - start))) 0 splits' [] with
        | .error e => .error e
        | .ok lhs =>
          match _hgroup : Nesting.inside? (Text.trimLeft right) with
          | some inner =>
            match prepare (Text.trim inner) with
            | .error e => .error e
            | .ok splits' => spine (Text.trim inner) 0 splits' ((op, lhs) :: chain)
          | none => spine right (position + 1) ahead ((op, lhs) :: chain)
termination_by rest.length
decreasing_by
  · exact length_left_lt _hsplit
  · exact length_inner_lt _hsplit _hgroup
  · exact length_right_lt _hsplit

end Parse

/-- The tree of a text, or the first operand whose parentheses do not balance. -/
def parse (s : Text) : Except ParseError Tree :=
  match Parse.prepare (Parse.bare s) with
  | .error e => .error e
  | .ok splits => Parse.spine (Parse.bare s) 0 splits []

/-- One turn of the loop: the left operand is parsed on its own, the right one goes on. -/
theorem Parse.spine_eq (rest : Text) (start : Nat) (splits : Splits)
    (chain : List (Operator × Tree)) :
    spine rest start splits chain =
      match splits.next (start + (rest.takeWhile isBlank).length) with
      | (none, _) => .ok (join chain (.ofText rest))
      | (some (position, op), ahead) =>
        match rest.drop (position - start) with
        | [] => .ok (join chain (.ofText rest))
        | _ :: right =>
          match parse (rest.take (position - start)) with
          | .error e => .error e
          | .ok lhs =>
            match Nesting.inside? (Text.trimLeft right) with
            | some inner =>
              match prepare (Text.trim inner) with
              | .error e => .error e
              | .ok splits' => spine (Text.trim inner) 0 splits' ((op, lhs) :: chain)
            | none => spine right (position + 1) ahead ((op, lhs) :: chain) := by
  rw [spine]
  rcases splits.next (start + (rest.takeWhile isBlank).length) with ⟨_ | ⟨position, op⟩, ahead⟩
  · rfl
  · dsimp only
    cases rest.drop (position - start) with
    | nil => rfl
    | cons c right =>
      dsimp only [parse]
      cases prepare (bare (rest.take (position - start))) with
      | error e => rfl
      | ok splits' =>
        dsimp only
        cases spine (bare (rest.take (position - start))) 0 splits' [] with
        | error e => rfl
        | ok lhs => cases Nesting.inside? (Text.trimLeft right) <;> rfl

end ReversePolish
