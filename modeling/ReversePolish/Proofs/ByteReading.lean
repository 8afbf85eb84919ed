import ReversePolish.Proofs.ByteScan
import ReversePolish.Proofs.Spine

/-! Reading on bytes reads what reading on characters reads, and nothing on the way to it fails. Both loops go through
the same turns, and every byte position of the one is where the character begins whose position the other has. -/
namespace ReversePolish
namespace Text

theorem utf8_injective {x y : Text} (h : x.utf8 = y.utf8) : x = y := by
  apply String.ofList_injective
  rw [← String.toByteArray_inj, String.toByteArray_ofList, String.toByteArray_ofList]
  exact congrArg List.toByteArray h

theorem take_utf8_append (x y : Text) : (utf8 (x ++ y)).take x.size = x.utf8 := by
  rw [utf8_append, size, List.take_left]

theorem drop_utf8_append (x y : Text) : (utf8 (x ++ y)).drop x.size = y.utf8 := by
  rw [utf8_append, size, List.drop_left]

theorem slice?_spec {s t : Text} {first last : Nat} :
    s.slice? first last = some t ↔
      first ≤ last ∧ last ≤ s.size ∧ s.isBoundary first = true ∧ s.isBoundary last = true ∧
        t.utf8 = (s.utf8.take last).drop first := by
  rw [slice?_eq_some_iff]
  constructor
  · rintro ⟨x, y, rfl, rfl, rfl⟩
    refine ⟨Nat.le_add_right _ _, ?_, isBoundary_iff.2 ⟨x, t ++ y, List.append_assoc x t y, rfl⟩,
      isBoundary_iff.2 ⟨x ++ t, y, rfl, (size_append x t).symm⟩, ?_⟩
    · rw [size_append, size_append]
      exact Nat.le_add_right _ _
    · rw [← size_append, take_utf8_append, drop_utf8_append]
  · rintro ⟨hle, -, hfirst, hlast, hbytes⟩
    obtain ⟨x, z, hx, rfl⟩ := isBoundary_iff.1 hfirst
    obtain ⟨w, y, rfl, rfl⟩ := isBoundary_iff.1 hlast
    obtain ⟨u, rfl⟩ := prefix_of_size_le ⟨z, hx.symm⟩ ⟨y, rfl⟩ hle
    rw [take_utf8_append, drop_utf8_append] at hbytes
    obtain rfl := utf8_injective hbytes
    exact ⟨x, y, rfl, rfl, size_append x t⟩

end Text

namespace Bytes

open Text (offset)

theorem minus?_eq_some_iff {a b d : Nat} : minus? a b = some d ↔ b + d = a := by
  rw [minus?]
  split <;> simp <;> omega

theorem lead?_eq (front rest : Text) :
    lead? front.size rest =
      some (offset (front ++ rest) (front.length + (rest.takeWhile isBlank).length)) := by
  have hrest : rest.takeWhile isBlank ++ rest.trimLeft = rest := Text.takeWhile_append_trimLeft rest
  have hoffset := Text.offset_length (rest.takeWhile isBlank) rest.trimLeft
  have hsize := congrArg Text.size hrest
  rw [hrest] at hoffset
  rw [Text.size_append] at hsize
  rw [lead?, minus?_eq_some_iff, Text.offset_append, hoffset]
  omega

theorem slice?_rest (front rest : Text) :
    Text.slice? (front ++ rest) front.size (Text.size (front ++ rest)) = some rest :=
  Text.slice?_eq_some_iff.2 ⟨front, [], by rw [List.append_nil], rfl, Text.size_append front rest⟩

theorem utf8Size_symbol (op : Operator) : op.symbol.utf8Size = 1 := by
  cases op <;> rfl

theorem cut?_eq (front x right : Text) (op : Operator) :
    cut? (front ++ (x ++ op.symbol :: right)) front.size (front.size + x.size) = some (x, right) := by
  have hleft : Text.slice? (front ++ (x ++ op.symbol :: right)) front.size (front.size + x.size) = some x :=
    Text.slice?_eq_some_iff.2 ⟨front, op.symbol :: right, (List.append_assoc front x _).symm, rfl, rfl⟩
  have hright : Text.slice? (front ++ (x ++ op.symbol :: right)) (front.size + x.size + 1)
      (Text.size (front ++ (x ++ op.symbol :: right))) = some right := by
    simpa [utf8Size_symbol, Nat.add_assoc] using slice?_rest (front ++ x ++ [op.symbol]) right
  rw [cut?, hleft, hright]

theorem bare?_eq (s : Text) : bare? s = some (Parse.bare s) := by
  rw [bare?, stripOuter?_eq]
  rfl

/-- The loop stands behind `front`. Its splits are all positions of their operators, and it has no blank at the
end. -/
structure Stands (front rest : Text) (splits : Splits) : Prop where
  symbols : ∀ op positions, (op, positions) ∈ splits → ∀ i ∈ positions, (front ++ rest)[i]? = some op.symbol
  last : ∀ c ∈ rest.getLast?, isBlank c = false

theorem stands_fresh {s : Text} (hs : Text.Trimmed s) : Stands [] s (.ofText s) where
  symbols := by
    intro op positions hmem i hi
    obtain ⟨f, -, hentry⟩ := List.mem_map.1 hmem
    rw [Nesting.filterMap_exposed, Prod.mk.injEq] at hentry
    obtain ⟨rfl, rfl⟩ := hentry
    exact (Nesting.exposes_iff.1 (List.mem_filter.1 hi).2).1
  last := hs.last

theorem stands_prepared {s : Text} {splits : Splits} (h : Parse.prepare s.trim = .ok splits) :
    Stands [] s.trim splits := by
  unfold Parse.prepare at h
  split at h
  · cases h
    exact stands_fresh (Text.trimmed_trim s)
  · cases h

theorem Stands.exists_cut {front rest : Text} {splits ahead : Splits} {lead position : Nat} {op : Operator}
    (h : Stands front rest splits) (hlead : front.length ≤ lead)
    (hnext : splits.next lead = (some (position, op), ahead)) :
    ∃ x right : Text, rest = x ++ op.symbol :: right ∧ position = front.length + x.length := by
  obtain ⟨hlt, positions, hmem, hposition⟩ := Splits.exists_of_next hnext
  have hsymbol := h.symbols op positions hmem position hposition
  obtain ⟨i, rfl⟩ := Nat.exists_eq_add_of_le (hlead.trans hlt.le)
  rw [List.getElem?_append_right (Nat.le_add_right _ _), Nat.add_sub_cancel_left] at hsymbol
  obtain ⟨hi, hget⟩ := List.getElem?_eq_some_iff.1 hsymbol
  refine ⟨rest.take i, rest.drop (i + 1), ?_, by rw [List.length_take_of_le hi.le]⟩
  rw [← hget, List.cons_getElem_drop_succ, List.take_append_drop]

theorem Stands.right {front x right : Text} {splits ahead : Splits} {lead : Nat} {op : Operator}
    {found : Option (Nat × Operator)} (h : Stands front (x ++ op.symbol :: right) splits)
    (hnext : splits.next lead = (found, ahead)) : Stands (front ++ x ++ [op.symbol]) right ahead where
  symbols := by
    intro f positions hmem i hi
    have hmem' : (f, positions) ∈ (splits.next lead).2 := by rwa [hnext]
    obtain ⟨all, hall, hsubset⟩ := Splits.exists_of_mem_next hmem'
    simpa using h.symbols f all hall i (hsubset hi)
  last := by
    have hlast := h.last
    rw [List.append_cons] at hlast
    exact Text.last_of_append hlast

def resume? (s right : Text) (start : Nat) (ahead : Splits) (chain : List (Operator × Tree)) :
    Option (Except ParseError Tree) :=
  match stripOuter? right.trim with
  | none => none
  | some inner =>
    if inner.size < right.trim.size then
      match prepare inner.trim with
      | .error e => some (.error e)
      | .ok splits => spine? inner.trim 0 splits chain
    else spine? s start ahead chain

/-- Behind `front` both loops read the rest alike, whatever chain they have. -/
def ReadsAlike (front rest : Text) (splits : Splits) : Prop :=
  ∀ chain, spine? (front ++ rest) front.size (splits.relabel (offset (front ++ rest))) chain =
    some (Parse.spine rest front.length splits chain)

def ResumesAlike (front right : Text) (ahead : Splits) : Prop :=
  ∀ chain, resume? (front ++ right) right front.size (ahead.relabel (offset (front ++ right))) chain =
    some (Parse.resume right front.length ahead chain)

section Turn

variable {front rest x right : Text} {splits ahead : Splits} {op : Operator}

theorem readsAlike_leaf (hnext : splits.next (front.length + (rest.takeWhile isBlank).length) = (none, ahead)) :
    ReadsAlike front rest splits := by
  intro chain
  rw [spine?, slice?_rest]
  dsimp only
  rw [lead?_eq]
  dsimp only
  rw [Splits.next_relabel (Text.strictMono_offset _), Parse.spine_eq, hnext]
  rfl

theorem readsAlike_node
    (hnext : splits.next (front.length + ((x ++ op.symbol :: right).takeWhile isBlank).length) =
      (some (front.length + x.length, op), ahead))
    (hleft : parse? x = some (parse x)) (hright : ResumesAlike (front ++ x ++ [op.symbol]) right ahead) :
    ReadsAlike front (x ++ op.symbol :: right) splits := by
  intro chain
  have hposition : offset (front ++ (x ++ op.symbol :: right)) (front.length + x.length) = front.size + x.size := by
    rw [Text.offset_append, Text.offset_length]
  rw [spine?, slice?_rest]
  dsimp only
  rw [lead?_eq]
  dsimp only
  rw [Splits.next_relabel (Text.strictMono_offset _), Parse.spine_eq, hnext]
  dsimp only [Option.map_some]
  rw [hposition, cut?_eq]
  simp only [Nat.add_sub_cancel_left, List.drop_left, List.take_left, hleft]
  cases parse x with
  | error e => rfl
  | ok lhs =>
    have hresume : resume? (front ++ (x ++ op.symbol :: right)) right (front.size + x.size + 1)
        (ahead.relabel (offset (front ++ (x ++ op.symbol :: right)))) ((op, lhs) :: chain) =
          some (Parse.resume right (front.length + x.length + 1) ahead ((op, lhs) :: chain)) := by
      simpa [utf8Size_symbol, Nat.add_assoc] using hright ((op, lhs) :: chain)
    refine Eq.trans ?_ (hresume.trans (congrArg some ?_))
    · rw [resume?]
      cases stripOuter? right.trim <;> rfl
    · rw [Parse.resume]
      cases Nesting.inside? right.trimLeft with
      | none => rfl
      | some inner => cases hprepare : Parse.prepare inner.trim <;> simp only [hprepare] <;> rfl

/-- If both loops read texts shorter than `n` alike, they go on alike with a right operand of that length, stripped or
not. -/
theorem resumesAlike {n : Nat}
    (hspine : ∀ {front rest : Text} {splits : Splits}, Stands front rest splits → rest.length < n →
      ReadsAlike front rest splits)
    (h : Stands front right ahead) (hn : right.length < n) : ResumesAlike front right ahead := by
  intro chain
  have htrim := Text.trim_eq_trimLeft h.last
  rw [resume?, stripOuter?_eq, Nesting.stripOuter]
  dsimp only
  cases hinside : Nesting.inside? right.trim with
  | none =>
    rw [Parse.resume_not_inside (htrim ▸ hinside), Option.getD_none, if_neg (Nat.lt_irrefl _)]
    exact hspine h hn chain
  | some inner =>
    have hgroup := (Nesting.inside?_eq_some_iff.1 hinside).1
    have hsize : inner.size < right.trim.size := by
      rw [hgroup, Text.size_append, Text.size_cons]
      have hpos := Char.utf8Size_pos '('
      omega
    have hshort : inner.trim.length < n := by
      have hlt := Nesting.length_inside?_lt hinside
      have hinner := Text.length_trim_le inner
      have hright := Text.length_trim_le right
      omega
    rw [Parse.resume_inside (htrim ▸ hinside), Option.getD_some, if_pos hsize, prepare_eq]
    cases hprepare : Parse.prepare inner.trim with
    | error e => rfl
    | ok splits => exact hspine (stands_prepared hprepare) hshort chain

end Turn

/-- From any point they can come to, both loops read the rest alike, if all left operands shorter than `n` are read
alike. -/
theorem readsAlike {n : Nat} (hparse : ∀ s : Text, s.length < n → parse? s = some (parse s)) {front rest : Text}
    {splits : Splits} (h : Stands front rest splits) (hn : rest.length ≤ n) : ReadsAlike front rest splits := by
  induction hk : rest.length using Nat.strong_induction_on generalizing front rest splits with
  | h k ih =>
    rcases hnext : splits.next (front.length + (rest.takeWhile isBlank).length) with ⟨_ | ⟨position, op⟩, ahead⟩
    · exact readsAlike_leaf hnext
    · obtain ⟨x, right, rfl, rfl⟩ := h.exists_cut (Nat.le_add_right _ _) hnext
      have hlength : x.length + (right.length + 1) = k := by
        rw [← hk, List.length_append, List.length_cons]
      refine readsAlike_node hnext (hparse x (by omega)) (resumesAlike (n := k) ?_ (h.right hnext) (by omega))
      exact fun hrest hlt => ih _ hlt hrest (by omega) rfl

theorem parse?_eq (s : Text) : parse? s = some (parse s) := by
  induction hn : s.length using Nat.strong_induction_on generalizing s with
  | h n ih =>
    rw [parse?, bare?_eq]
    dsimp only
    rw [parse, prepare_eq]
    cases hprepare : Parse.prepare (Parse.bare s) with
    | error e => rfl
    | ok splits =>
      exact readsAlike (fun s' hs' => ih _ hs' s' rfl) (stands_prepared hprepare) (hn ▸ Parse.length_bare_le s) []

/-- Reading on bytes never fails, whatever the text: in no call and no turn of the loop does it come to a slice that is
not there or to a difference below zero. It reads what reading on characters reads, the same tree or the same error. A
slice is there just if its bounds are in order and in range and no character is cut. -/
theorem reads_safely :
    (∀ s : Text, parse? s = some (parse s)) ∧
    (∀ (s t : Text) (first last : Nat), s.slice? first last = some t ↔
      first ≤ last ∧ last ≤ s.size ∧ s.isBoundary first = true ∧ s.isBoundary last = true ∧
        t.utf8 = (s.utf8.take last).drop first) ∧
    (∀ (s : Text) (n : Nat), s.isBoundary n = true ↔ ∃ x y, s = x ++ y ∧ n = x.utf8.length) ∧
    ∀ a b d : Nat, minus? a b = some d ↔ b + d = a :=
  ⟨parse?_eq, fun _ _ _ _ => Text.slice?_spec, fun _ _ => Text.isBoundary_iff, fun _ _ _ => minus?_eq_some_iff⟩

/-- Two bytes, then an operator, then a character of three bytes. -/
theorem reads_safely_beyond_ascii :
    parse? "é*日".toList = some (parse "é*日".toList) ∧
    Text.slice? "é*日".toList 0 2 = some ['é'] ∧ Text.slice? "é*日".toList 3 6 = some ['日'] ∧
    Text.slice? "é*日".toList 0 1 = none := by
  refine ⟨reads_safely.1 _, by decide, by decide, ?_⟩
  rw [Option.eq_none_iff_forall_ne_some]
  intro t ht
  have hinside := ((reads_safely.2.1 _ t 0 1).1 ht).2.2.2.1
  exact absurd hinside (by decide)

end Bytes
end ReversePolish
