import ReversePolish.Proofs.Calls
import ReversePolish.Proofs.Reading

/-! A bound on the depth of the calls. A step to the left goes to a tighter operator, of which there are five, unless
a pair of parentheses has come off. So the nesting of the text bounds the depth, and the length of its chains does
not. -/
namespace ReversePolish
namespace Nesting

/-- The greatest level that a front of the text has. -/
def depth : Text → Nat
  | [] => 0
  | c :: s => (shift c + depth s).toNat

theorem depth_le_iff {s : Text} {l : Int} : (depth s : Int) ≤ l ↔ ∀ x, x <+: s → level x ≤ l := by
  induction s generalizing l with
  | nil => simp [depth]
  | cons c s ih =>
    have hrest := ih (l := l - shift c)
    simp only [List.prefix_cons_iff, forall_eq_or_imp, forall_exists_index, and_imp, level_nil]
    constructor
    · intro hle
      rw [depth] at hle
      refine ⟨by omega, fun x y hx hy => ?_⟩
      have hy := hrest.1 (by omega) y hy
      rw [hx, level_cons]
      omega
    · rintro ⟨hl, hup⟩
      have hle := hrest.2 fun y hy => by
        have hc := hup (c :: y) y rfl hy
        rw [level_cons] at hc
        omega
      rw [depth]
      omega

/-- A piece reaches its depth on top of the level at which it begins. -/
theorem level_add_depth_le (x s y : Text) : level x + depth s ≤ depth (x ++ s ++ y) := by
  have hwhole := depth_le_iff.1 (Int.le_refl (depth (x ++ s ++ y) : Int))
  have hpiece : (depth s : Int) ≤ depth (x ++ s ++ y) - level x := by
    refine depth_le_iff.2 fun p hp => ?_
    have hfront : x ++ p <+: x ++ s ++ y :=
      ((List.prefix_append_right_inj x).2 hp).trans (List.prefix_append _ y)
    have hle := hwhole _ hfront
    rw [level_append] at hle
    omega
  omega

theorem depth_trim_le (s : Text) : depth s.trim ≤ depth s := by
  obtain ⟨a, b, ha, -, hs⟩ := Text.exists_trim s
  have hle := level_add_depth_le a s.trim b
  rw [← hs, level_blank ha] at hle
  omega

theorem depth_inside_lt {s inner : Text} (h : inside? s = some inner) : depth inner < depth s := by
  obtain ⟨rfl, -⟩ := inside?_eq_some_iff.1 h
  have hle := level_add_depth_le ['('] inner [')']
  rw [level_cons, level_nil, shift_open] at hle
  have hgroup : depth (['('] ++ inner ++ [')']) = depth ('(' :: inner ++ [')']) := rfl
  omega

theorem depth_left_le (x y : Text) : depth x ≤ depth (x ++ y) := by
  have hle := level_add_depth_le [] x y
  rw [level_nil, List.nil_append] at hle
  omega

theorem depth_right_le {x : Text} (hx : level x = 0) (y : Text) : depth y ≤ depth (x ++ y) := by
  have hle := level_add_depth_le x y []
  rw [hx, List.append_nil] at hle
  omega

end Nesting

namespace Parse

open Nesting (level depth exposes firstAfter?)

theorem bare_eq_trim_or_depth_lt (s : Text) : bare s = s.trim ∨ depth (bare s) < depth s := by
  cases hinside : Nesting.inside? s.trim with
  | none => exact .inl (bare_of_not_inside hinside)
  | some inner =>
    rw [bare_of_inside hinside]
    have hinner := Nesting.depth_inside_lt hinside
    have htrim := Nesting.depth_trim_le inner
    have htrim' := Nesting.depth_trim_le s
    exact .inr (by omega)

theorem rank_lt_five (op : Operator) : op.rank < 5 := by
  cases op <;> decide

/-- Every level has five steps to the left, less those that its operators have used up: `k` if a text shows none of
the `k` loosest behind its beginning. -/
theorem Reads.leftDepth_le {s : Text} {t : Tree} (h : Reads s t) {k : Nat} (hk : k ≤ 5)
    (hshown : ∀ op i, 0 < i → exposes s.trim op i = true → k ≤ op.rank) :
    t.leftDepth + k ≤ 5 * (depth s + 1) := by
  induction h generalizing k with
  | leaf =>
    rw [Tree.leftDepth]
    omega
  | @node s x y op lhs rhs hbare hpoint hlhs hrhs ihlhs ihrhs =>
    have hsplit := hbare ▸ hpoint
    have hrank := rank_lt_five op
    -- the left operand has used up the operator, the right one all that are looser
    have hleft : lhs.leftDepth + (op.rank + 1) ≤ 5 * (depth x + 1) := by
      refine ihlhs hrank fun f i hi hexp => ?_
      obtain ⟨j, hle, hexp⟩ := Nesting.exists_exposes_of_trim hexp
      exact Nesting.rank_lt_of_exposes_left hsplit (by omega) hexp
    have hright : rhs.leftDepth + op.rank ≤ 5 * (depth y + 1) := by
      refine ihrhs hrank.le fun f i hi hexp => ?_
      obtain ⟨j, hle, hexp⟩ := Nesting.exists_exposes_of_trim hexp
      exact Nesting.rank_le_of_exposes_right hsplit hlhs.level_eq hexp
    have hx : depth x ≤ depth (bare s) := hbare ▸ Nesting.depth_left_le x _
    have hy : depth y ≤ depth (bare s) := by
      have hfront : level (x ++ [op.symbol]) = 0 := by simp [hlhs.level_eq]
      rw [hbare, List.append_cons]
      exact Nesting.depth_right_le hfront y
    rw [Tree.leftDepth]
    rcases bare_eq_trim_or_depth_lt s with htrim | hlt
    · obtain ⟨hpos, hexp, -⟩ := Nesting.firstAfter?_spec hpoint
      have hkrank := hshown op x.length hpos (htrim ▸ hexp)
      have hdepth := htrim ▸ Nesting.depth_trim_le s
      omega
    · omega

theorem leftDepth_le_of_parse {s : Text} {t : Tree} (h : parse s = .ok t) :
    t.leftDepth ≤ 5 * (depth s + 1) :=
  (parse_eq_ok_iff.1 h).leftDepth_le (Nat.zero_le 5) fun _ _ _ _ => Nat.zero_le _

/-- A path of a tree goes to the left at most five times for every level of the text, the outermost included. The calls
of the parser nest as deep as such a path goes to the left, so they are bounded in the same way. -/
theorem parse_nests_by_depth {s : Text} {t : Tree} (h : parse s = .ok t) :
    (∀ path text, t.at? path = some (.leaf text) → Tree.leftTurns path ≤ 5 * (depth s + 1)) ∧
    (∀ n, Nests s n ↔ ∃ path text, t.at? path = some (.leaf text) ∧ n ≤ Tree.leftTurns path) ∧
    ∀ n, Nests s n → n ≤ 5 * (depth s + 1) := by
  have hbound := leftDepth_le_of_parse h
  refine ⟨fun path text hat => (Tree.leftTurns_le hat).trans hbound, fun n => ?_, fun n hnests => ?_⟩
  · rw [nests_iff h]
    constructor
    · intro hle
      obtain ⟨path, text, hat, hturns⟩ := t.exists_leftTurns_eq
      exact ⟨path, text, hat, hturns ▸ hle⟩
    · rintro ⟨path, text, hat, hle⟩
      exact hle.trans (Tree.leftTurns_le hat)
  · exact ((nests_iff h).1 hnests).trans hbound

/-- A step to the tighter quotient, and three more inside the group, where the sum comes first again. -/
theorem parse_nests_by_depth_group :
    parse "(1*2-3+4)/5".toList = .ok (.node .div (.node .add (.node .sub (.node .mul (.leaf ['1']) (.leaf ['2']))
      (.leaf ['3'])) (.leaf ['4'])) (.leaf ['5'])) ∧
    (Tree.node .div (.node .add (.node .sub (.node .mul (.leaf ['1']) (.leaf ['2'])) (.leaf ['3']))
      (.leaf ['4'])) (.leaf ['5'])).at? [.left, .left, .left, .left] = some (.leaf ['1']) ∧
    Tree.leftTurns [.left, .left, .left, .left] ≤ 5 * (depth "(1*2-3+4)/5".toList + 1) ∧
    Nests "(1*2-3+4)/5".toList 4 ∧ 4 ≤ 5 * (depth "(1*2-3+4)/5".toList + 1) := by
  have hproduct : Reads "1*2".toList (.node .mul (.leaf ['1']) (.leaf ['2'])) :=
    .node (by decide) (by decide) (.leaf (s := ['1']) (by decide) (by decide))
      (.leaf (s := ['2']) (by decide) (by decide))
  have hdifference : Reads "1*2-3".toList
      (.node .sub (.node .mul (.leaf ['1']) (.leaf ['2'])) (.leaf ['3'])) :=
    .node (by decide) (by decide) hproduct (.leaf (s := ['3']) (by decide) (by decide))
  have hgroup : Reads "(1*2-3+4)".toList
      (.node .add (.node .sub (.node .mul (.leaf ['1']) (.leaf ['2'])) (.leaf ['3'])) (.leaf ['4'])) :=
    .node (by decide) (by decide) hdifference (.leaf (s := ['4']) (by decide) (by decide))
  have hreads : Reads "(1*2-3+4)/5".toList (.node .div (.node .add (.node .sub
      (.node .mul (.leaf ['1']) (.leaf ['2'])) (.leaf ['3'])) (.leaf ['4'])) (.leaf ['5'])) :=
    .node (by decide) (by decide) hgroup (.leaf (s := ['5']) (by decide) (by decide))
  have hparse := parse_eq_ok_iff.2 hreads
  obtain ⟨hpaths, hnests, hbound⟩ := parse_nests_by_depth hparse
  have hat : (Tree.node .div (.node .add (.node .sub (.node .mul (.leaf ['1']) (.leaf ['2'])) (.leaf ['3']))
      (.leaf ['4'])) (.leaf ['5'])).at? [.left, .left, .left, .left] = some (.leaf ['1']) := rfl
  have hfour := (hnests 4).2 ⟨_, _, hat, Nat.le_refl 4⟩
  exact ⟨hparse, hat, hpaths _ _ hat, hfour, hbound 4 hfour⟩

end Parse
end ReversePolish
