import ReversePolish.Proofs.Redundant

/-! Which pair of parentheses comes off. The scan sees that the level does not come back to zero before the last
character, and takes it that the last one closes the first. That is so unless the first one is never closed. Such a text
loses its first and last character as well; it does not balance, so its reading fails, and the error has the text
without the two. -/
namespace ReversePolish
namespace Nesting

/-- Where the parenthesis with which a text begins is closed: there the level is back at zero for the first time. -/
def closing? (s : Text) : Option Nat :=
  if s.head? = some '(' then
    (List.range s.length).find? fun position => level (s.take (position + 1)) == 0
  else none

def stripClosed (s : Text) : Text :=
  if closing? s = some (s.length - 1) then s.tail.dropLast else s

/-- The parenthesis with which the text begins is never closed, and the text ends with one that closes another. -/
def Unclosed (s : Text) : Prop :=
  s.head? = some '(' ∧ s.getLast? = some ')' ∧ closing? s = none

instance (s : Text) : Decidable (Unclosed s) := inferInstanceAs (Decidable (_ ∧ _ ∧ _))

section Closing

variable {rest inner s : Text}

theorem closing?_cons :
    closing? ('(' :: rest) =
      (List.range (rest.length + 1)).find? fun position => 1 + level (rest.take position) == 0 := by
  rw [closing?, if_pos List.head?_cons, List.length_cons]
  refine congrArg (List.find? · _) (funext fun position => ?_)
  rw [List.take_succ_cons, level_cons, shift_open]

theorem closing?_eq_some_iff {position : Nat} :
    closing? ('(' :: rest) = some position ↔
      position ≤ rest.length ∧ 1 + level (rest.take position) = 0 ∧
        ∀ j < position, 1 + level (rest.take j) ≠ 0 := by
  rw [closing?_cons, List.find?_range_eq_some]
  simp only [beq_iff_eq, List.mem_range, Nat.lt_succ_iff, Bool.not_eq_true', beq_eq_false_iff_ne]
  exact and_left_comm

theorem closing?_eq_none_iff :
    closing? ('(' :: rest) = none ↔ ∀ j < rest.length + 1, 1 + level (rest.take j) ≠ 0 := by
  rw [closing?_cons, List.find?_eq_none]
  simp only [List.mem_range, beq_iff_eq, ne_eq]

/-- A level that begins at one and does not come to zero stays above it, since no character lowers it by more than one. -/
theorem level_take_pos {n : Nat} (h : ∀ j < n, 1 + level (rest.take j) ≠ 0) :
    ∀ j < n, 0 < 1 + level (rest.take j) := by
  intro j hj
  induction j with
  | zero => rw [List.take_zero, level_nil]; exact Int.one_pos
  | succ j ih =>
    have hpos := ih (by omega)
    have hne := h (j + 1) hj
    rw [List.take_add_one, level_append] at hne ⊢
    have hlast : -1 ≤ level rest[j]?.toList := by
      cases rest[j]? with
      | none => exact (by decide)
      | some c =>
        rw [Option.toList_some, level_cons, level_nil, Int.add_zero]
        exact neg_one_le_shift c
    omega

theorem enclosable_of_level_ne {c : Char} (h : ∀ j < inner.length + 1, 1 + level ((inner ++ [c]).take j) ≠ 0) :
    Enclosable inner := by
  intro x hx
  have hlength := hx.length_le
  have hpos := level_take_pos h x.length (by omega)
  rw [List.take_append_of_le_length hlength, ← List.prefix_iff_eq_take.1 hx] at hpos
  omega

theorem eq_close_of_shift {c : Char} (h : shift c = -1) : c = ')' := by
  by_contra hne
  rw [shift_eq, if_neg hne] at h
  split_ifs at h <;> omega

theorem closing?_group (h : Enclosable inner) :
    closing? ('(' :: inner ++ [')']) = if level inner = 0 then some (inner.length + 1) else none := by
  -- no front that is shorter than the text is back at zero
  have hfront : ∀ j ≤ inner.length, 1 + level ((inner ++ [')']).take j) ≠ 0 := by
    intro j hj
    have hlevel := h (inner.take j) (List.take_prefix j inner)
    rw [List.take_append_of_le_length hj]
    omega
  have hwhole : 1 + level ((inner ++ [')']).take (inner.length + 1)) = level inner := by
    rw [List.take_of_length_le (by simp), level_append, level_cons, level_nil, shift_close]
    omega
  rw [List.cons_append]
  split_ifs with hlevel
  · refine closing?_eq_some_iff.2 ⟨by simp, hwhole.trans hlevel, fun j hj => hfront j (Nat.lt_succ_iff.1 hj)⟩
  · refine closing?_eq_none_iff.2 fun j hj => ?_
    rw [List.length_append, List.length_singleton] at hj
    rcases Nat.le_succ_iff.1 (Nat.lt_succ_iff.1 hj) with hle | rfl
    · exact hfront j hle
    · rwa [hwhole]

theorem exists_ends (hhead : s.head? = some '(') (hne : s ≠ ['(']) : ∃ inner c, s = '(' :: inner ++ [c] := by
  obtain ⟨rest, rfl⟩ := List.head?_eq_some_iff.1 hhead
  rcases List.eq_nil_or_concat rest with rfl | ⟨inner, c, rfl⟩
  · exact absurd rfl hne
  · exact ⟨inner, c, by rw [List.concat_eq_append, List.cons_append]⟩

theorem closing?_eq_last_iff : closing? s = some (s.length - 1) ↔ Group s := by
  constructor
  · intro h
    have hhead : s.head? = some '(' := by
      by_contra hhead
      rw [closing?, if_neg hhead] at h
      cases h
    have hne : s ≠ ['('] := by
      rintro rfl
      exact absurd h (by decide)
    obtain ⟨inner, c, rfl⟩ := exists_ends hhead hne
    rw [List.cons_append, List.length_cons, List.length_append, List.length_singleton, Nat.add_sub_cancel] at h
    obtain ⟨-, hzero, hfront⟩ := closing?_eq_some_iff.1 h
    have hinner := enclosable_of_level_ne hfront
    have hlevel := hinner inner List.prefix_rfl
    have hshift := neg_one_le_shift c
    rw [List.take_of_length_le (by simp), level_append, level_cons, level_nil] at hzero
    obtain rfl : c = ')' := eq_close_of_shift (by omega)
    rw [shift_close] at hzero
    exact ⟨inner, rfl, hinner, by omega⟩
  · rintro ⟨inner, rfl, hinner⟩
    rw [closing?_group hinner.enclosable, if_pos hinner.level_eq]
    simp

/-- The unclosed texts are those that lose two ends and do not balance. -/
theorem unclosed_iff : Unclosed s ↔ ∃ inner, inside? s = some inner ∧ level inner ≠ 0 := by
  constructor
  · rintro ⟨hhead, hlast, hnone⟩
    have hne : s ≠ ['('] := by
      rintro rfl
      exact absurd hlast (by decide)
    obtain ⟨inner, c, rfl⟩ := exists_ends hhead hne
    rw [List.getLast?_concat, Option.some_inj] at hlast
    subst hlast
    rw [List.cons_append] at hnone
    have hinner : Enclosable inner := by
      refine enclosable_of_level_ne fun j hj => closing?_eq_none_iff.1 hnone j ?_
      rw [List.length_append]
      exact Nat.lt_succ_of_lt hj
    refine ⟨inner, inside?_eq_some_iff.2 ⟨rfl, hinner⟩, fun hlevel => ?_⟩
    rw [← List.cons_append, closing?_group hinner, if_pos hlevel] at hnone
    cases hnone
  · rintro ⟨inner, hinside, hlevel⟩
    obtain ⟨rfl, hinner⟩ := inside?_eq_some_iff.1 hinside
    refine ⟨rfl, List.getLast?_concat, ?_⟩
    rw [closing?_group hinner, if_neg hlevel]

end Closing

section Strip

variable {s : Text}

theorem stripClosed_of_group {inner : Text} (h : Nested inner) : stripClosed ('(' :: inner ++ [')']) = inner := by
  rw [stripClosed, if_pos (closing?_eq_last_iff.2 ⟨inner, rfl, h⟩)]
  simp

theorem stripClosed_of_unclosed (h : Unclosed s) : stripClosed s = s := by
  rw [stripClosed, h.2.2]
  rfl

theorem stripOuter_of_unclosed (h : Unclosed s) : stripOuter s = s.tail.dropLast ∧ 0 < level s := by
  obtain ⟨inner, hinside, hlevel⟩ := unclosed_iff.1 h
  obtain ⟨rfl, hinner⟩ := inside?_eq_some_iff.1 hinside
  have hpos := hinner inner List.prefix_rfl
  rw [stripOuter, hinside, level_group]
  exact ⟨by simp, by omega⟩

theorem stripOuter_of_not_unclosed (h : ¬Unclosed s) : stripOuter s = stripClosed s := by
  cases hinside : inside? s with
  | none =>
    have hgroup : ¬Group s := by
      rintro ⟨inner, rfl, hinner⟩
      rw [inside?_eq_some_iff.2 ⟨rfl, hinner.enclosable⟩] at hinside
      cases hinside
    rw [stripOuter, hinside, stripClosed, if_neg fun hlast => hgroup (closing?_eq_last_iff.1 hlast)]
    rfl
  | some inner =>
    have hlevel : level inner = 0 := by
      by_contra hne
      exact h (unclosed_iff.2 ⟨inner, hinside, hne⟩)
    obtain ⟨hs, hinner⟩ := inside?_eq_some_iff.1 hinside
    rw [stripOuter, hinside, hs, stripClosed_of_group ⟨hinner, hlevel⟩]
    rfl

/-- The first and the last character come off if the last one closes the first, and else nothing does: this holds of a
text exactly if it is not unclosed. An unclosed text loses its two ends all the same. It opens more parentheses than it
closes, so it cannot be read, and the error has what is left of it. -/
theorem stripOuter_eq_stripClosed_iff (s : Text) :
    (stripOuter s = stripClosed s ↔ ¬Unclosed s) ∧
      (Unclosed s → stripOuter s = s.tail.dropLast ∧ 0 < level s) ∧
      (Unclosed s.trim → parse s = .error (.unbalanced (Text.trim s.trim.tail.dropLast))) := by
  refine ⟨⟨fun heq h => ?_, stripOuter_of_not_unclosed⟩, stripOuter_of_unclosed, fun h => ?_⟩
  · rw [(stripOuter_of_unclosed h).1, stripClosed_of_unclosed h] at heq
    have hlength := congrArg List.length heq
    have hpos := List.length_pos_of_mem (List.mem_of_mem_head? h.1)
    simp only [List.length_dropLast, List.length_tail] at hlength
    omega
  · obtain ⟨hstrip, hlevel⟩ := stripOuter_of_unclosed h
    rw [level_trim] at hlevel
    rw [Parse.parse_unbalanced (Int.ne_of_gt hlevel), Parse.bare, hstrip]

/-- The last parenthesis closes the second one, and comes off with the first one. -/
theorem stripOuter_unclosed_group :
    Unclosed "((1)".toList ∧ stripClosed "((1)".toList = "((1)".toList ∧ stripOuter "((1)".toList = "(1".toList ∧
      parse "((1)".toList = .error (.unbalanced "(1".toList) := by
  have hunclosed : Unclosed "((1)".toList := by decide
  have hlevel : level "((1)".toList ≠ 0 := by decide
  exact ⟨hunclosed, stripClosed_of_unclosed hunclosed, (stripOuter_of_unclosed hunclosed).1,
    Parse.parse_unbalanced hlevel⟩

end Strip

end Nesting
end ReversePolish
