import ReversePolish.Proofs.TreeValue

/-! Redundant parentheses. One pair comes off an operand, so a pair that is put around a properly nested text is the
one that comes off, unless the text is a group already. Then the pair of the group stays, hides all that is in it, and
makes a leaf that is no token of the machine. -/
namespace ReversePolish
namespace Nesting

/-- A text that is one group: the parenthesis that opens it is closed by the one at its end. -/
def Group (s : Text) : Prop := ∃ inner, s = '(' :: inner ++ [')'] ∧ Nested inner

theorem group_iff {s : Text} (h : level s = 0) : Group s ↔ ∃ inner, inside? s = some inner := by
  constructor
  · rintro ⟨inner, rfl, hinner⟩
    exact ⟨inner, inside?_eq_some_iff.2 ⟨rfl, hinner.enclosable⟩⟩
  · rintro ⟨inner, hinside⟩
    obtain ⟨hs, hinner⟩ := inside?_eq_some_iff.1 hinside
    exact ⟨inner, hs, hinner, (level_inside hinside).trans h⟩

theorem inside?_eq_none_of_not_group {s : Text} (h : level s = 0) (hgroup : ¬Group s) :
    inside? s = none := by
  rw [group_iff h, not_exists] at hgroup
  exact Option.eq_none_iff_forall_ne_some.2 hgroup

namespace Group

variable {s : Text}

theorem trimmed (h : Group s) : Text.Trimmed s := by
  obtain ⟨inner, rfl, -⟩ := h
  exact trimmed_group inner

theorem firstAfter?_eq_none (h : Group s) : firstAfter? 0 s = none := by
  obtain ⟨inner, rfl, hinner⟩ := h
  rw [firstAfter?_eq_none_iff]
  exact fun position op hposition => exposes_group hinner.enclosable op hposition

theorem ofToken?_eq_none (h : Group s) : Operator.ofToken? s = none := by
  obtain ⟨inner, rfl, -⟩ := h
  cases inner <;> rfl

theorem isLiteral_eq_false (h : Group s) : Literal.isLiteral s = false := by
  obtain ⟨inner, rfl, -⟩ := h
  rfl

theorem submit_eq (h : Group s) (m : Machine) : m.submit s = m.raise (.unrecognized s) := by
  have htrim := Text.trim_eq_self h.trimmed
  rw [Machine.submit_unrecognized, htrim]
  · rw [htrim, h.ofToken?_eq_none]
  · rw [htrim, h.isLiteral_eq_false]

end Group
end Nesting

namespace Parse

open Nesting (Nested Group)

theorem bare_parenthesised {s before after before' after' : Text} (h : Nested s)
    (hbefore : Text.Blank before) (hafter : Text.Blank after) (hbefore' : Text.Blank before')
    (hafter' : Text.Blank after') :
    bare (before ++ ('(' :: (before' ++ s ++ after') ++ [')']) ++ after) = s.trim := by
  rw [bare_append_blank hafter, bare_blank_append hbefore,
    bare_group (h.surround hbefore' hafter').enclosable, Text.trim_append_blank hafter',
    Text.trim_blank_append hbefore']

theorem parse_of_group {s : Text} (h : Group (bare s)) (hlevel : Nesting.level s = 0) :
    parse s = .ok (.leaf (bare s)) :=
  parse_leaf hlevel h.firstAfter?_eq_none

theorem evaluate_of_group {s : Text} (h : Group (bare s)) (hlevel : Nesting.level s = 0) :
    evaluate s = .error (.run (.unrecognized (bare s))) := by
  rw [evaluate_of_parse (parse_of_group h hlevel), Tree.crawl_leaf, h.submit_eq]
  rfl

/-- A properly nested text is read alike with and without a pair of parentheses around it, if it is not one group
itself. If it is, the text in one more pair is a leaf with the parentheses of the group, and this leaf is the fault in
its evaluation, whatever is in the group. Blanks on either side of the added parentheses do not count. -/
theorem parse_parenthesised {s before after before' after' : Text} (h : Nested s)
    (hbefore : Text.Blank before) (hafter : Text.Blank after) (hbefore' : Text.Blank before')
    (hafter' : Text.Blank after') :
    (¬Group s.trim →
      parse (before ++ ('(' :: (before' ++ s ++ after') ++ [')']) ++ after) = parse s) ∧
    (Group s.trim →
      parse (before ++ ('(' :: (before' ++ s ++ after') ++ [')']) ++ after) = .ok (.leaf s.trim) ∧
      evaluate (before ++ ('(' :: (before' ++ s ++ after') ++ [')']) ++ after) =
        .error (.run (.unrecognized s.trim))) := by
  have hbare := bare_parenthesised h hbefore hafter hbefore' hafter'
  have htrim : Nesting.level s.trim = 0 := by rw [Nesting.level_trim, h.level_eq]
  refine ⟨fun hgroup => ?_, fun hgroup => ?_⟩
  · have hinside := Nesting.inside?_eq_none_of_not_group htrim hgroup
    exact parse_congr (hbare.trans (bare_of_not_inside hinside).symm)
  · have hlevel := level_bare (before ++ ('(' :: (before' ++ s ++ after') ++ [')']) ++ after)
    rw [hbare, htrim] at hlevel
    rw [← hbare] at hgroup ⊢
    exact ⟨parse_of_group hgroup hlevel.symm, evaluate_of_group hgroup hlevel.symm⟩

/-- Two groups side by side are not one group. A group in a group is not taken apart. -/
theorem parse_parenthesised_twice :
    Nested "(1)+(2)".toList ∧ ¬Group (Text.trim "(1)+(2)".toList) ∧
    parse "\t( (1)+(2)) ".toList = parse "(1)+(2)".toList ∧
    Nested "(1+2)".toList ∧ Group (Text.trim "(1+2)".toList) ∧
    parse "( (1+2))".toList = .ok (.leaf "(1+2)".toList) ∧
    evaluate "( (1+2))".toList = .error (.run (.unrecognized "(1+2)".toList)) := by
  have hone : Nested ['1'] := Nesting.nested_of_shift (List.forall_mem_singleton.2 rfl)
  have htwo : Nested ['2'] := Nesting.nested_of_shift (List.forall_mem_singleton.2 rfl)
  have hplus : Nested ['+'] := Nesting.nested_of_shift (List.forall_mem_singleton.2 rfl)
  have hsum : Nested "1+2".toList := (hone.append hplus).append htwo
  have hsums : Nested "(1)+(2)".toList := (hone.group.append hplus).append htwo.group
  have hside : ¬Group (Text.trim "(1)+(2)".toList) := by
    rw [Nesting.group_iff (by decide)]
    rintro ⟨inner, hinner⟩
    cases hinner
  have hgroup : Group (Text.trim "(1+2)".toList) := ⟨"1+2".toList, by decide, hsum⟩
  have hspace := Text.blank_space
  have htab : Text.Blank ['\t'] := Text.blank_of_all (by decide)
  have hread := (parse_parenthesised hsums htab hspace hspace Text.blank_nil).1 hside
  have hleaf := (parse_parenthesised (s := "(1+2)".toList) hsum.group Text.blank_nil Text.blank_nil
    hspace Text.blank_nil).2 hgroup
  exact ⟨hsums, hside, hread, hsum.group, hgroup, hleaf⟩

end Parse
end ReversePolish
