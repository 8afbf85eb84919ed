import ReversePolish.Proofs.Failure

/-! Which operand is to blame. A text with different counts of the two parentheses is itself the operand that does not
balance. With equal counts it is a left operand that closes more than it opens, just before its operator; groups and
right operands are never at fault themselves. -/
namespace ReversePolish
namespace Nesting

/-- An operand stands in a text at level zero, and behind it the next character that is no blank is an operator. -/
def StandsIn (operand s : Text) : Prop :=
  ∃ before blanks op after, s = before ++ operand ++ blanks ++ Operator.symbol op :: after ∧
    level before = 0 ∧ Text.Blank blanks

theorem StandsIn.append {operand x : Text} (h : StandsIn operand x) (y : Text) :
    StandsIn operand (x ++ y) := by
  obtain ⟨before, blanks, op, after, rfl, hbefore, hblanks⟩ := h
  exact ⟨before, blanks, op, after ++ y, by simp, hbefore, hblanks⟩

theorem StandsIn.append_left {operand x y : Text} (h : StandsIn operand y) (hx : level x = 0) :
    StandsIn operand (x ++ y) := by
  obtain ⟨before, blanks, op, after, rfl, hbefore, hblanks⟩ := h
  refine ⟨x ++ before, blanks, op, after, by simp, ?_, hblanks⟩
  rw [level_append, hx, hbefore, Int.add_zero]

theorem standsIn_of_trim {operand s : Text} (h : StandsIn operand s.trim) : StandsIn operand s := by
  obtain ⟨a, b, ha, -, hs⟩ := Text.exists_trim s
  rw [hs]
  exact (h.append_left (level_blank ha)).append b

end Nesting

namespace Parse

open Nesting (level firstAfter? inside? StandsIn)

/-- `Blames s p`: reading `s` fails because of the operand `p`. The left operand is read first. -/
inductive Blames : Text → Text → Prop
  | whole {s : Text} (hlevel : level s ≠ 0) : Blames s (bare s)
  | left {s x y p : Text} {op : Operator} (hlevel : level s = 0) (hbare : bare s = x ++ op.symbol :: y)
    (hpoint : firstAfter? 0 (bare s) = some (x.length, op)) (hlhs : Blames x p) : Blames s p
  | right {s x y p : Text} {op : Operator} {lhs : Tree} (hlevel : level s = 0)
    (hbare : bare s = x ++ op.symbol :: y) (hpoint : firstAfter? 0 (bare s) = some (x.length, op))
    (hlhs : Reads x lhs) (hrhs : Blames y p) : Blames s p

theorem parse_eq_error_iff {s p : Text} : parse s = .error (.unbalanced p) ↔ Blames s p := by
  constructor
  · intro h
    induction s using operand_induction with
    | unbalanced s hlevel =>
      rw [parse_unbalanced hlevel] at h
      cases h
      exact .whole hlevel
    | leaf s hlevel hpoint =>
      rw [parse_leaf hlevel hpoint] at h
      cases h
    | node s x op y hlevel hbare hpoint _ ihx ihy =>
      rw [parse_node hlevel hbare hpoint] at h
      cases hlhs : parse x with
      | error e =>
        rw [hlhs] at h
        cases h
        exact .left hlevel hbare hpoint (ihx hlhs)
      | ok lhs =>
        cases hrhs : parse y with
        | error e =>
          rw [hlhs, hrhs] at h
          cases h
          exact .right hlevel hbare hpoint (parse_eq_ok_iff.1 hlhs) (ihy hrhs)
        | ok rhs =>
          rw [hlhs, hrhs] at h
          cases h
  · intro h
    induction h with
    | whole hlevel => exact parse_unbalanced hlevel
    | left hlevel hbare hpoint hlhs ih =>
      rw [parse_node hlevel hbare hpoint, ih]
      rfl
    | right hlevel hbare hpoint hlhs hrhs ih =>
      rw [parse_node hlevel hbare hpoint, parse_eq_ok_iff.2 hlhs, ih]
      rfl

theorem Blames.eq_bare {s p : Text} (h : Blames s p) (hlevel : level s ≠ 0) : p = bare s := by
  cases h with
  | whole => rfl
  | left hzero => exact absurd hzero hlevel
  | right hzero => exact absurd hzero hlevel

theorem Blames.inside?_eq_none {s p : Text} (h : Blames s p) (hlevel : level s = 0) :
    inside? s.trim = none := by
  rw [Option.eq_none_iff_forall_ne_some]
  intro inner hinside
  obtain ⟨t, ht⟩ := exists_parse_of_inside hlevel hinside
  rw [parse_eq_error_iff.2 h] at ht
  cases ht

theorem Blames.level_ne {s p : Text} (h : Blames s p) : level p ≠ 0 := by
  induction h with
  | whole hlevel => rwa [level_bare]
  | left hlevel hbare hpoint hlhs ih => exact ih
  | right hlevel hbare hpoint hlhs hrhs ih => exact ih

theorem bare_of_level_neg {s : Text} (h : level s < 0) : bare s = s.trim := by
  refine bare_of_not_inside ?_
  rw [Option.eq_none_iff_forall_ne_some]
  intro inner hinside
  have hpos := (Nesting.inside?_eq_some_iff.1 hinside).2 inner List.prefix_rfl
  rw [Nesting.level_inside hinside, Nesting.level_trim] at hpos
  omega

/-- A left operand below level zero is blamed itself, and stands before its operator. -/
theorem standsIn_bare {x y : Text} {op : Operator} (hx : level x < 0)
    (hfirst : ∀ c ∈ (x ++ op.symbol :: y).head?, isBlank c = false) :
    StandsIn (bare x) (x ++ op.symbol :: y) := by
  obtain ⟨blanks, hblanks, hright⟩ := Text.exists_trim_of_head (Text.head_of_append hfirst)
  refine ⟨[], blanks, op, y, ?_, Nesting.level_nil, hblanks⟩
  rw [List.nil_append, bare_of_level_neg hx, ← hright]

/-- The operand that is blamed in a balanced text closes more than it opens, and stands before an operator. -/
theorem Blames.standsIn {s p : Text} (h : Blames s p) (hlevel : level s = 0) :
    Text.Trimmed p ∧ level p < 0 ∧ StandsIn p s := by
  induction h with
  | whole hne => exact absurd hlevel hne
  | @left s x y p op _ hbare hpoint hlhs ih =>
    have htrim := bare_of_not_inside ((Blames.left hlevel hbare hpoint hlhs).inside?_eq_none hlevel)
    have hfirst := (trimmed_bare s).first
    rw [hbare] at htrim hpoint hfirst
    by_cases hx : level x = 0
    · obtain ⟨htrimmed, hneg, hstands⟩ := ih hx
      refine ⟨htrimmed, hneg, Nesting.standsIn_of_trim ?_⟩
      rw [← htrim]
      exact hstands.append _
    · have hle := Nesting.level_left_le hpoint
      have hneg : level x < 0 := by omega
      obtain rfl := hlhs.eq_bare hx
      refine ⟨trimmed_bare x, by rwa [level_bare], Nesting.standsIn_of_trim ?_⟩
      rw [← htrim]
      exact standsIn_bare hneg hfirst
  | @right s x y p op lhs _ hbare hpoint hlhs hrhs ih =>
    have htrim :=
      bare_of_not_inside ((Blames.right hlevel hbare hpoint hlhs hrhs).inside?_eq_none hlevel)
    rw [hbare] at htrim
    have hfront : level (x ++ [op.symbol]) = 0 := by simp [hlhs.level_eq]
    have hy : level y = 0 := by
      rw [← Nesting.level_trim, ← htrim] at hlevel
      simpa [hlhs.level_eq] using hlevel
    obtain ⟨htrimmed, hneg, hstands⟩ := ih hy
    refine ⟨htrimmed, hneg, Nesting.standsIn_of_trim ?_⟩
    rw [← htrim, List.append_cons]
    exact hstands.append_left hfront

/-- The operand that a failing text blames. If the text has different counts of the two parentheses it is the text,
without blanks and one outer pair. If the counts are equal it is trimmed, closes more than it opens, and stands in the
text where as many are opened as closed, and the next character behind it that is no blank is an operator. In both
cases its own counts differ. -/
theorem parse_blames {s p : Text} (h : parse s = .error (.unbalanced p)) :
    (s.count '(' ≠ s.count ')' → p = Text.trim (Nesting.stripOuter s.trim)) ∧
    (s.count '(' = s.count ')' → Text.Trimmed p ∧ p.count '(' < p.count ')' ∧
      ∃ before blanks op after, s = before ++ p ++ blanks ++ Operator.symbol op :: after ∧
        before.count '(' = before.count ')' ∧ Text.Blank blanks ∧
        (before ++ p ++ blanks).count '(' < (before ++ p ++ blanks).count ')') ∧
    p.count '(' ≠ p.count ')' := by
  have hblames := parse_eq_error_iff.1 h
  refine ⟨fun hcount => ?_, fun hcount => ?_, fun hcount => ?_⟩
  · exact hblames.eq_bare fun hlevel => hcount (Nesting.level_eq_zero_iff.1 hlevel)
  · obtain ⟨htrimmed, hneg, before, blanks, op, after, hs, hbefore, hblanks⟩ :=
      hblames.standsIn (Nesting.level_eq_zero_iff.2 hcount)
    have hstray : level (before ++ p ++ blanks) < 0 := by
      rwa [Nesting.level_append, Nesting.level_append, hbefore, Nesting.level_blank hblanks,
        Int.zero_add, Int.add_zero]
    exact ⟨htrimmed, Nesting.level_neg_iff.1 hneg, before, blanks, op, after, hs,
      Nesting.level_eq_zero_iff.1 hbefore, hblanks, Nesting.level_neg_iff.1 hstray⟩
  · exact hblames.level_ne (Nesting.level_eq_zero_iff.2 hcount)

/-- The first text loses a pair of parentheses that does not belong together. In the second the group and the first
operands are read before the stray parenthesis is met. -/
theorem parse_blames_stray :
    parse " ((1 + 2)".toList = .error (.unbalanced "(1 + 2".toList) ∧
    " ((1 + 2)".toList.count '(' ≠ " ((1 + 2)".toList.count ')' ∧
    "(1 + 2".toList = Text.trim (Nesting.stripOuter (Text.trim " ((1 + 2)".toList)) ∧
    parse "(7)*1+ 2 ) / ( 3".toList = .error (.unbalanced "2 )".toList) ∧
    "(7)*1+ 2 ) / ( 3".toList.count '(' = "(7)*1+ 2 ) / ( 3".toList.count ')' ∧
    Text.Trimmed "2 )".toList ∧ "2 )".toList.count '(' < "2 )".toList.count ')' ∧
    ∃ before blanks op after,
      "(7)*1+ 2 ) / ( 3".toList = before ++ "2 )".toList ++ blanks ++ Operator.symbol op :: after ∧
      before.count '(' = before.count ')' ∧ Text.Blank blanks ∧
      (before ++ "2 )".toList ++ blanks).count '(' < (before ++ "2 )".toList ++ blanks).count ')' := by
  have hwhole : Blames " ((1 + 2)".toList "(1 + 2".toList :=
    .whole (s := " ((1 + 2)".toList) (by decide)
  have hproduct : Reads "(7)*1".toList (.node .mul (.leaf ['7']) (.leaf ['1'])) :=
    .node (by decide) (by decide) (.leaf (s := "(7)".toList) (by decide) (by decide))
      (.leaf (s := ['1']) (by decide) (by decide))
  have hslash : bare " 2 ) / ( 3".toList = "2 ) ".toList ++ Operator.symbol .div :: " ( 3".toList := by
    decide
  have hquotient : Blames " 2 ) / ( 3".toList "2 )".toList :=
    .left (by decide) hslash (by decide) (.whole (s := "2 ) ".toList) (by decide))
  have hplus : bare "(7)*1+ 2 ) / ( 3".toList =
      "(7)*1".toList ++ Operator.symbol .add :: " 2 ) / ( 3".toList := by decide
  have hstray : Blames "(7)*1+ 2 ) / ( 3".toList "2 )".toList :=
    .right (by decide) hplus (by decide) hproduct hquotient
  have hparse := parse_eq_error_iff.2 hwhole
  have hparse' := parse_eq_error_iff.2 hstray
  have hcount : " ((1 + 2)".toList.count '(' ≠ " ((1 + 2)".toList.count ')' := by decide
  have hcount' : "(7)*1+ 2 ) / ( 3".toList.count '(' = "(7)*1+ 2 ) / ( 3".toList.count ')' := by decide
  exact ⟨hparse, hcount, (parse_blames hparse).1 hcount, hparse', hcount', (parse_blames hparse').2.1 hcount'⟩

end Parse
end ReversePolish
