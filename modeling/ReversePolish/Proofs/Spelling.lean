import ReversePolish.Proofs.Reading
import ReversePolish.Proofs.Written

/-! What reading keeps of a text. Blanks and parentheses come and go, and every other character is in the tree, in
its place. -/
namespace ReversePolish
namespace Text

def isInk (c : Char) : Bool := !isBlank c && c != '(' && c != ')'

def ink (s : Text) : Text := s.filter isInk

@[simp] theorem ink_nil : ink [] = [] := rfl

@[simp] theorem ink_append (x y : Text) : ink (x ++ y) = ink x ++ ink y := List.filter_append x y

@[simp] theorem ink_open (s : Text) : ink ('(' :: s) = ink s := rfl

@[simp] theorem ink_close (s : Text) : ink (')' :: s) = ink s := rfl

@[simp] theorem ink_space (s : Text) : ink (' ' :: s) = ink s := rfl

@[simp] theorem ink_symbol (op : Operator) (s : Text) : ink (op.symbol :: s) = op.symbol :: ink s := by
  cases op <;> rfl

theorem ink_blank {a : Text} (ha : Blank a) : ink a = [] := by
  refine List.filter_eq_nil_iff.2 fun c hc => ?_
  simp [isInk, ha c hc]

@[simp] theorem ink_trim (s : Text) : ink s.trim = ink s := by
  obtain ⟨a, b, ha, hb, hs⟩ := exists_trim s
  conv_rhs => rw [hs]
  simp [ink_blank ha, ink_blank hb]

@[simp] theorem ink_stripOuter (s : Text) : ink (Nesting.stripOuter s) = ink s := by
  unfold Nesting.stripOuter
  cases h : Nesting.inside? s with
  | none => rfl
  | some inner =>
    obtain ⟨rfl, -⟩ := Nesting.inside?_eq_some_iff.1 h
    simp

theorem ink_bare (s : Text) : ink (Parse.bare s) = ink s := by
  simp [Parse.bare]

end Text

namespace Tree

open Text (ink)

def inorder : Tree → List Text
  | leaf text => [text]
  | node op lhs rhs => lhs.inorder ++ [op.symbol] :: rhs.inorder

theorem ink_written (t : Tree) : ink t.written = ink t.inorder.flatten := by
  induction t with
  | leaf text => simp [inorder]
  | node op lhs rhs ihlhs ihrhs => simp [inorder, body, ihlhs, ihrhs]

end Tree

open Text (ink)

/-- A split takes its operator out of the operand, and stripping takes off blanks and parentheses. -/
theorem Parse.Reads.ink_inorder {s : Text} {t : Tree} (h : Reads s t) :
    ink t.inorder.flatten = ink s := by
  induction h with
  | @leaf s hlevel hpoint => simpa [Tree.inorder] using Text.ink_bare s
  | @node s x y op lhs rhs hbare hpoint hlhs hrhs ihlhs ihrhs =>
    rw [← Text.ink_bare s, hbare]
    simp [Tree.inorder, ihlhs, ihrhs]

/-- Reading a text loses no character, doubles none and moves none: blanks and parentheses apart, the written form
of the tree is the text, and so are the tokens of the tree in order. -/
theorem parse_keeps_ink {s : Text} {t : Tree} (h : parse s = .ok t) :
    ink t.written = ink s ∧ ink t.inorder.flatten = ink s := by
  have hink := (Parse.parse_eq_ok_iff.1 h).ink_inorder
  exact ⟨(Tree.ink_written t).trans hink, hink⟩

theorem parse_keeps_ink_regrouped :
    parse " (1 + 2 )* 3/4".toList = .ok (.node .mul (.node .add (.leaf ['1']) (.leaf ['2']))
      (.node .div (.leaf ['3']) (.leaf ['4']))) ∧
    ink (Tree.node .mul (.node .add (.leaf ['1']) (.leaf ['2']))
      (.node .div (.leaf ['3']) (.leaf ['4']))).written = "1+2*3/4".toList := by
  have hlhs : Parse.Reads "(1 + 2 )".toList (.node .add (.leaf ['1']) (.leaf ['2'])) :=
    .node (by decide) (by decide) (.leaf (s := "1 ".toList) (by decide) (by decide))
      (.leaf (s := " 2".toList) (by decide) (by decide))
  have hrhs : Parse.Reads " 3/4".toList (.node .div (.leaf ['3']) (.leaf ['4'])) :=
    .node (by decide) (by decide) (.leaf (s := "3".toList) (by decide) (by decide))
      (.leaf (s := "4".toList) (by decide) (by decide))
  have hparse : parse " (1 + 2 )* 3/4".toList =
      .ok (.node .mul (.node .add (.leaf ['1']) (.leaf ['2'])) (.node .div (.leaf ['3']) (.leaf ['4']))) :=
    Parse.parse_eq_ok_iff.2 (.node (by decide) (by decide) hlhs hrhs)
  exact ⟨hparse, (parse_keeps_ink hparse).1.trans (by decide)⟩

end ReversePolish
