import Mathlib.Data.List.TakeWhile
import Mathlib.Logic.Function.Basic
import ReversePolish.Splits

/-! Split points that are kept as they were found, with a cursor into the positions of each operator. A search moves on
the cursors of the operators it asks, one position at a time, and notes what they pass; the cursors of tighter operators
stay where they are. `Splits` is what lies ahead of the cursors. -/
namespace ReversePolish

/-- The positions of every operator, and how many of them its cursor has passed. -/
structure Cursors where
  hits : Operator → List Nat
  cursor : Operator → Nat

/-- A search: the cursors before it, what it finds, the positions that cursors pass in it, one after the other, and the
cursors after it. -/
structure Search where
  before : Cursors
  found : Option (Nat × Operator)
  passed : List (Nat × Operator)
  after : Cursors

namespace Cursors

def positionsOf (hits : List (Nat × Operator)) (op : Operator) : List Nat :=
  hits.filterMap fun hit => if hit.2 = op then some hit.1 else none

def ofHits (hits : List (Nat × Operator)) : Cursors := ⟨positionsOf hits, fun _ => 0⟩

def ahead (c : Cursors) : Splits :=
  Operator.splitOrder.map fun op => (op, (c.hits op).drop (c.cursor op))

def at? (c : Cursors) (op : Operator) : Option Nat := (c.hits op)[c.cursor op]?

/-- Moves a cursor on as long as it stands at a position up to `lead`: the positions it passes, and where it stops. -/
def advance (lead : Nat) (hits : List Nat) (cursor : Nat) : List Nat × Nat :=
  if h : cursor < hits.length then
    if hits[cursor] ≤ lead then
      (hits[cursor] :: (advance lead hits (cursor + 1)).1, (advance lead hits (cursor + 1)).2)
    else ([], cursor)
  else ([], cursor)
termination_by hits.length - cursor

def pass (lead : Nat) (op : Operator) (c : Cursors) : List (Nat × Operator) × Cursors :=
  let moved := advance lead (c.hits op) (c.cursor op)
  (moved.1.map fun position => (position, op), { c with cursor := Function.update c.cursor op moved.2 })

/-- Asks the operators in turn, and stops at the first whose cursor, moved on, stands at a position. -/
def ask (lead : Nat) : List Operator → Cursors → Search
  | [], c => ⟨c, none, [], c⟩
  | op :: tighter, c =>
    match (c.pass lead op).2.at? op with
    | some position => ⟨c, some (position, op), (c.pass lead op).1, (c.pass lead op).2⟩
    | none =>
      let later := ask lead tighter (c.pass lead op).2
      ⟨c, later.found, (c.pass lead op).1 ++ later.passed, later.after⟩

def next (lead : Nat) (c : Cursors) : Search := ask lead Operator.splitOrder c

def searches : List Nat → Cursors → List Search
  | [], _ => []
  | lead :: leads, c => c.next lead :: searches leads (c.next lead).after

end Cursors

def Splits.searches : List Nat → Splits → List (Option (Nat × Operator) × Splits)
  | [], _ => []
  | lead :: leads, splits => splits.next lead :: searches leads (splits.next lead).2

namespace Cursors

section Positions

theorem positionsOf_append (x y : List (Nat × Operator)) (op : Operator) :
    positionsOf (x ++ y) op = positionsOf x op ++ positionsOf y op :=
  List.filterMap_append

theorem positionsOf_map (positions : List Nat) (op f : Operator) :
    positionsOf (positions.map fun position => (position, op)) f = if op = f then positions else [] := by
  rw [positionsOf, List.filterMap_map]
  by_cases h : op = f
  · have hkept : ((fun hit : Nat × Operator => if hit.2 = f then some hit.1 else none) ∘
        fun position => (position, op)) = some := funext fun _ => if_pos h
    rw [hkept, List.filterMap_some, if_pos h]
  · rw [if_neg h, List.filterMap_eq_nil_iff]
    exact fun _ _ => if_neg h

theorem positionsOf_map_fst (f : Nat → Nat) (hits : List (Nat × Operator)) (op : Operator) :
    positionsOf (hits.map fun hit => (f hit.1, hit.2)) op = (positionsOf hits op).map f := by
  rw [positionsOf, positionsOf, List.filterMap_map, List.map_filterMap]
  refine congrArg (List.filterMap · hits) (funext fun hit => ?_)
  by_cases h : hit.2 = op <;> simp [h]

theorem count_positionsOf (hits : List (Nat × Operator)) (hit : Nat × Operator) :
    (positionsOf hits hit.2).count hit.1 = hits.count hit := by
  rw [positionsOf, List.count_filterMap, List.count]
  refine List.countP_congr fun other _ => ?_
  by_cases h : other.2 = hit.2 <;> simp [h, Prod.ext_iff]

end Positions

section Advance

theorem advance_eq (lead : Nat) (hits : List Nat) (cursor : Nat) :
    advance lead hits cursor =
      ((hits.drop cursor).takeWhile (· ≤ lead),
        cursor + ((hits.drop cursor).takeWhile (· ≤ lead)).length) := by
  fun_induction advance lead hits cursor with
  | case1 cursor h hle ih =>
    rw [List.drop_eq_getElem_cons h, List.takeWhile_cons_of_pos (by simpa using hle), ih, List.length_cons]
    simp only [Nat.add_assoc, Nat.add_comm 1]
  | case2 cursor h hle =>
    rw [List.drop_eq_getElem_cons h, List.takeWhile_cons_of_neg (by simpa using hle)]
    rfl
  | case3 cursor h =>
    rw [List.drop_of_length_le (Nat.le_of_not_lt h)]
    rfl

variable (lead : Nat) (hits : List Nat) (cursor : Nat)

theorem le_of_mem_advance {position : Nat} (h : position ∈ (advance lead hits cursor).1) : position ≤ lead := by
  rw [advance_eq] at h
  simpa using List.mem_takeWhile_imp h

theorem advance_snd : (advance lead hits cursor).2 = cursor + (advance lead hits cursor).1.length := by
  rw [advance_eq]

theorem take_advance :
    hits.take (advance lead hits cursor).2 = hits.take cursor ++ (advance lead hits cursor).1 := by
  have hprefix : (hits.drop cursor).takeWhile (· ≤ lead) <+: hits.drop cursor := List.takeWhile_prefix _
  rw [advance_eq, List.take_add, ← List.prefix_iff_eq_take.1 hprefix]

theorem drop_advance :
    hits.drop (advance lead hits cursor).2 = (hits.drop cursor).dropWhile (· ≤ lead) := by
  have hsplit : (hits.drop cursor).takeWhile (· ≤ lead) ++ (hits.drop cursor).dropWhile (· ≤ lead) =
      hits.drop cursor := List.takeWhile_append_dropWhile
  calc hits.drop (advance lead hits cursor).2
      = (hits.drop cursor).drop ((hits.drop cursor).takeWhile (· ≤ lead)).length := by
        rw [advance_eq, List.drop_drop]
    _ = ((hits.drop cursor).takeWhile (· ≤ lead) ++ (hits.drop cursor).dropWhile (· ≤ lead)).drop
          ((hits.drop cursor).takeWhile (· ≤ lead)).length := by rw [hsplit]
    _ = (hits.drop cursor).dropWhile (· ≤ lead) := List.drop_left

end Advance

section Pass

variable (lead : Nat) (op : Operator) (c : Cursors)

@[simp] theorem hits_pass : (c.pass lead op).2.hits = c.hits := rfl

theorem cursor_pass_self : (c.pass lead op).2.cursor op = (advance lead (c.hits op) (c.cursor op)).2 :=
  Function.update_self ..

theorem cursor_pass_of_ne {f : Operator} (h : f ≠ op) : (c.pass lead op).2.cursor f = c.cursor f :=
  Function.update_of_ne h ..

theorem positionsOf_pass (f : Operator) :
    positionsOf (c.pass lead op).1 f = if op = f then (advance lead (c.hits op) (c.cursor op)).1 else [] :=
  positionsOf_map _ op f

theorem cursor_pass (f : Operator) :
    (c.pass lead op).2.cursor f = c.cursor f + (positionsOf (c.pass lead op).1 f).length := by
  rw [positionsOf_pass]
  by_cases h : op = f
  · subst h
    rw [if_pos rfl, cursor_pass_self, advance_snd]
  · rw [if_neg h, cursor_pass_of_ne lead op c (Ne.symm h), List.length_nil, Nat.add_zero]

theorem take_pass (f : Operator) :
    (c.hits f).take ((c.pass lead op).2.cursor f) =
      (c.hits f).take (c.cursor f) ++ positionsOf (c.pass lead op).1 f := by
  rw [positionsOf_pass]
  by_cases h : op = f
  · subst h
    rw [if_pos rfl, cursor_pass_self, take_advance]
  · rw [if_neg h, cursor_pass_of_ne lead op c (Ne.symm h), List.append_nil]

theorem drop_pass :
    (c.hits op).drop ((c.pass lead op).2.cursor op) =
      ((c.hits op).drop (c.cursor op)).dropWhile (· ≤ lead) := by
  rw [cursor_pass_self, drop_advance]

/-- Where the cursor stops stands what a search of the positions ahead of it comes to first. -/
theorem at?_pass :
    (c.pass lead op).2.at? op = (((c.hits op).drop (c.cursor op)).dropWhile (· ≤ lead)).head? := by
  rw [at?, hits_pass, ← List.head?_drop, drop_pass]

end Pass

section Ask

variable {lead : Nat} {op : Operator} {tighter : List Operator} {c : Cursors}

theorem ask_of_some {position : Nat} (h : (c.pass lead op).2.at? op = some position) :
    ask lead (op :: tighter) c =
      ⟨c, some (position, op), (c.pass lead op).1, (c.pass lead op).2⟩ := by
  rw [ask, h]

theorem ask_of_none (h : (c.pass lead op).2.at? op = none) :
    ask lead (op :: tighter) c =
      ⟨c, (ask lead tighter (c.pass lead op).2).found,
        (c.pass lead op).1 ++ (ask lead tighter (c.pass lead op).2).passed,
        (ask lead tighter (c.pass lead op).2).after⟩ := by
  rw [ask, h]

end Ask

end Cursors
end ReversePolish
