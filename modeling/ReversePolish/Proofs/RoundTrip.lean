import ReversePolish.Proofs.Link
import ReversePolish.Proofs.Reading
import ReversePolish.Proofs.Written

/-! Trees that are read back from their written form. Every node is one group there, of which reading takes off
the parentheses; inside them its operator is the first split point, whatever signs its operands begin with. -/
namespace ReversePolish

/-- A text that stays whole when it is read: trimmed, without parentheses, and without an operator but at its
beginning. -/
structure Text.Whole (s : Text) : Prop where
  trimmed : Text.Trimmed s
  not_open : '(' ∉ s
  not_close : ')' ∉ s
  no_operator : ∀ op : Operator, op.symbol ∉ s.tail

namespace Text.Whole

theorem nested {s : Text} (h : s.Whole) : Nesting.Nested s :=
  Nesting.nested_of_shift (Nesting.shift_of_notMem h.not_open h.not_close)

theorem hidden {s : Text} (h : s.Whole) (op : Operator) (position : Nat) (hposition : 0 < position) :
    Nesting.exposes s op position = false :=
  Nesting.exposes_of_notMem_tail (h.no_operator op) hposition

theorem bare_eq_self {s : Text} (h : s.Whole) : Parse.bare s = s := by
  have htrim : s.trim = s := Text.trim_eq_self h.trimmed
  rw [Parse.bare_of_not_inside, htrim]
  rw [htrim]
  exact Nesting.inside?_eq_none_of_head fun hopen => h.not_open (List.mem_of_mem_head? hopen)

theorem reads {s : Text} (h : s.Whole) : Parse.Reads s (.leaf s) := by
  have hpoint : Nesting.firstAfter? 0 (Parse.bare s) = none := by
    rw [h.bare_eq_self, Nesting.firstAfter?_eq_none_iff]
    exact fun position op => h.hidden op position
  have hleaf := Parse.Reads.leaf h.nested.level_eq hpoint
  rwa [h.bare_eq_self] at hleaf

end Text.Whole

namespace Tree

open Nesting (Nested Solid exposes)
open Parse (bare Reads)

/-- All leaves are whole. The left operand of a node has a character, and a sign that its right operand begins
with is not of a looser operator than that of the node. -/
inductive Legible : Tree → Prop
  | leaf {text : Text} (hwhole : text.Whole) : Legible (leaf text)
  | node {op : Operator} {lhs rhs : Tree} (hlhs : Legible lhs) (hrhs : Legible rhs)
    (hne : lhs ≠ .leaf [])
    (hsign : ∀ sign rest, rhs = .leaf (Operator.symbol sign :: rest) → op.rank ≤ sign.rank) :
    Legible (node op lhs rhs)

theorem written_ne_nil {t : Tree} (h : t ≠ leaf []) : t.written ≠ [] := by
  cases t with
  | leaf text => simpa using h
  | node op lhs rhs => simp

theorem nested_body {op : Operator} {lhs rhs : Tree} (hlhs : Nested lhs.written)
    (hrhs : Nested rhs.written) : Nested (body op lhs rhs) := by
  have hspace : Nesting.shift ' ' = 0 := rfl
  have hsymbol : Nested [' ', op.symbol, ' '] := Nesting.nested_of_shift (by simp [hspace])
  exact (hlhs.append hsymbol).append hrhs

namespace Legible

theorem nested {t : Tree} (h : t.Legible) : Nested t.written := by
  induction h with
  | leaf hwhole =>
    rw [written_leaf]
    exact hwhole.nested
  | node hlhs hrhs hne hsign ihlhs ihrhs =>
    rw [written_node]
    exact (nested_body ihlhs ihrhs).group

theorem trimmed {t : Tree} (h : t.Legible) : Text.Trimmed t.written := by
  cases h with
  | leaf hwhole =>
    rw [written_leaf]
    exact hwhole.trimmed
  | node =>
    rw [written_node]
    exact Nesting.trimmed_group _

theorem hidden {t : Tree} (h : t.Legible) (op : Operator) (position : Nat) (hposition : 0 < position) :
    exposes t.written op position = false := by
  cases h with
  | leaf hwhole =>
    rw [written_leaf]
    exact hwhole.hidden op position hposition
  | node hlhs hrhs =>
    rw [written_node]
    exact Nesting.exposes_group (nested_body hlhs.nested hrhs.nested).enclosable op hposition

theorem solid {t : Tree} (h : t.Legible) (hne : t ≠ .leaf []) : Solid t.written :=
  ⟨written_ne_nil hne, h.nested.level_eq, h.hidden⟩

theorem leaf_of_exposes {t : Tree} {op : Operator} (h : exposes t.written op 0 = true) :
    ∃ rest, t = .leaf (op.symbol :: rest) := by
  obtain ⟨hget, -⟩ := Nesting.exposes_iff.1 h
  rw [← List.head?_eq_getElem?] at hget
  cases t with
  | leaf text =>
    rw [written_leaf] at hget
    obtain ⟨rest, rfl⟩ := List.head?_eq_some_iff.1 hget
    exact ⟨rest, rfl⟩
  | node f lhs rhs =>
    rw [written_node, List.cons_append, List.head?_cons, Option.some.injEq] at hget
    cases op <;> cases hget

section Body

variable {lhs rhs : Tree} (op : Operator)

/-- The body of a node is trimmed but for the blank before an empty right operand. -/
theorem exists_trim_body (hlhs : lhs.Legible) (hrhs : rhs.Legible) (hne : lhs ≠ .leaf []) :
    ∃ after, Text.Blank after ∧ (body op lhs rhs).trim =
      lhs.written ++ [' '] ++ op.symbol :: (after ++ rhs.written) := by
  obtain ⟨after, hafter, hright⟩ :=
    Text.exists_trimRight_blank_append Text.blank_space hrhs.trimmed.last
  have hsplit : body op lhs rhs = lhs.written ++ [' '] ++ op.symbol :: ([' '] ++ rhs.written) := by
    simp [body]
  have hfirst : ∀ c ∈ (body op lhs rhs).head?, isBlank c = false := by
    rw [body, List.append_assoc, List.head?_append_of_ne_nil _ (written_ne_nil hne)]
    exact hlhs.trimmed.first
  refine ⟨after, hafter, ?_⟩
  rw [Text.trim, Text.trimLeft_eq_self hfirst, hsplit,
    Text.trimRight_append_cons op.isBlank_symbol, hright]

/-- The body of a node is not one group, even if its operands are. -/
theorem bare_body (hlhs : lhs.Legible) (hrhs : rhs.Legible) (hne : lhs ≠ .leaf []) :
    bare (body op lhs rhs) = (body op lhs rhs).trim := by
  obtain ⟨after, -, htrim⟩ := exists_trim_body op hlhs hrhs hne
  refine Parse.bare_of_not_inside ?_
  rw [htrim, List.append_assoc]
  exact Nesting.inside?_append (written_ne_nil hne) (by simp) hlhs.nested.level_eq

theorem bare_written (hlhs : lhs.Legible) (hrhs : rhs.Legible) (hne : lhs ≠ .leaf []) :
    bare (Tree.node op lhs rhs).written = bare (body op lhs rhs) := by
  have hbody : Nested (body op lhs rhs) := nested_body hlhs.nested hrhs.nested
  rw [written_node, Parse.bare_group hbody.enclosable, bare_body op hlhs hrhs hne]

theorem reads_body {op : Operator} (h : (Tree.node op lhs rhs).Legible) (hlhs : Reads lhs.written lhs)
    (hrhs : Reads rhs.written rhs) : Reads (body op lhs rhs) (.node op lhs rhs) := by
  cases h with
  | node hleft hright hne hsign =>
    obtain ⟨after, hafter, htrim⟩ := exists_trim_body op hleft hright hne
    have hbare := (bare_body op hleft hright hne).trans htrim
    refine .node hbare ?_ (hlhs.congr (Parse.bare_append_blank Text.blank_space _))
      (hrhs.congr (Parse.bare_blank_append hafter _))
    rw [hbare]
    -- behind the operator only a sign of the right operand is exposed, and it does not split first
    refine (hleft.solid hne).firstAfter?_link Text.blank_space hafter (fun other hother => ?_)
      fun i other hpos hother => ?_
    · obtain ⟨rest, hrest⟩ := leaf_of_exposes hother
      exact hsign other rest hrest
    · rw [hright.hidden other i hpos] at hother
      cases hother

end Body

theorem reads_written {t : Tree} (h : t.Legible) : Reads t.written t := by
  induction h with
  | leaf hwhole =>
    rw [written_leaf]
    exact hwhole.reads
  | node hlhs hrhs hne hsign ihlhs ihrhs =>
    have hbody := (Legible.node hlhs hrhs hne hsign).reads_body ihlhs ihrhs
    exact hbody.congr (bare_written _ hlhs hrhs hne)

end Legible

/-- A legible tree is read back from its written form, and if it is a node also from its written form without
the outer parentheses. -/
theorem parse_written (t : Tree) (h : t.Legible) :
    parse t.written = .ok t ∧ ∀ op lhs rhs, t = node op lhs rhs →
      ∃ inner, t.written = '(' :: inner ++ [')'] ∧ parse inner = .ok t := by
  refine ⟨Parse.parse_eq_ok_iff.2 h.reads_written, ?_⟩
  rintro op lhs rhs rfl
  refine ⟨body op lhs rhs, written_node op lhs rhs, Parse.parse_eq_ok_iff.2 ?_⟩
  cases h with
  | node hlhs hrhs hne hsign =>
    exact (Legible.node hlhs hrhs hne hsign).reads_body hlhs.reads_written hrhs.reads_written

/-- A quotient without a right operand stands before a minus, and a negative literal behind it. -/
theorem parse_written_signs :
    (node .sub (node .div (leaf ['-', '8']) (leaf [])) (leaf ['-', '5'])).Legible ∧
    parse "((-8 / ) - -5)".toList =
      .ok (node .sub (node .div (leaf ['-', '8']) (leaf [])) (leaf ['-', '5'])) := by
  have hlhs : Text.Whole ['-', '8'] :=
    ⟨Text.trimmed_trim ['-', '8'], by decide, by decide, fun op => by cases op <;> decide⟩
  have hempty : Text.Whole [] :=
    ⟨Text.trimmed_trim [], by decide, by decide, fun op => by cases op <;> decide⟩
  have hrhs : Text.Whole ['-', '5'] :=
    ⟨Text.trimmed_trim ['-', '5'], by decide, by decide, fun op => by cases op <;> decide⟩
  have hsign : ∀ sign rest, leaf ['-', '5'] = leaf (Operator.symbol sign :: rest) →
      Operator.rank .sub ≤ sign.rank := by
    intro sign rest hrest
    have hsub : Operator.symbol .sub = sign.symbol := (List.cons.inj (leaf.inj hrest)).1
    rw [Operator.symbol_injective hsub]
  have hlegible : (node .sub (node .div (leaf ['-', '8']) (leaf [])) (leaf ['-', '5'])).Legible :=
    .node (.node (.leaf hlhs) (.leaf hempty) (by simp) (by simp)) (.leaf hrhs) (by simp) hsign
  have hwritten : (node .sub (node .div (leaf ['-', '8']) (leaf [])) (leaf ['-', '5'])).written =
      "((-8 / ) - -5)".toList := by
    simp only [written_node, written_leaf, body]
    decide
  refine ⟨hlegible, ?_⟩
  rw [← hwritten]
  exact (parse_written _ hlegible).1

end Tree
end ReversePolish
