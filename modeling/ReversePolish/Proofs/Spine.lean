import ReversePolish.Proofs.Cursors

/-! The loop over the right operands of a chain reads what the plain recursion reads. It goes on with the
cursors of a larger operand because every left operand it has passed is balanced, or else the reading has
already failed with the same error. -/
namespace ReversePolish
namespace Parse

open Nesting (level inside?)

/-- One turn of the plain recursion, on an operand that is already bare. -/
def descend (s : Text) : Except ParseError Tree :=
  if Nesting.balanced s then
    match Nesting.firstAfter? 0 s with
    | none => .ok (.leaf s)
    | some (position, op) =>
      (recursive (s.take position)).bind fun lhs =>
        (recursive (s.drop (position + 1))).map (.node op lhs)
  else .error (.unbalanced s)

theorem recursive_eq (s : Text) : recursive s = descend (bare s) := by
  rw [recursive, descend]
  refine if_congr Iff.rfl ?_ rfl
  split
  · rename_i hpoint
    rw [hpoint]
  · rename_i position op hpoint
    rw [hpoint]
    dsimp only
    cases recursive ((bare s).take position) with
    | error e => rfl
    | ok lhs => cases recursive ((bare s).drop (position + 1)) <;> rfl

theorem descend_leaf {s : Text} (hlevel : level s = 0) (hpoint : Nesting.firstAfter? 0 s = none) :
    descend s = .ok (.leaf s) := by
  rw [descend, if_pos (Nesting.balanced_iff.2 hlevel), hpoint]

theorem descend_node {x y : Text} {op : Operator} (hlevel : level (x ++ op.symbol :: y) = 0)
    (hpoint : Nesting.firstAfter? 0 (x ++ op.symbol :: y) = some (x.length, op)) :
    descend (x ++ op.symbol :: y) =
      (recursive x).bind fun lhs => (recursive y).map (.node op lhs) := by
  have hright : (x ++ op.symbol :: y).drop (x.length + 1) = y := by
    rw [List.append_cons, List.drop_left' (by simp)]
  rw [descend, if_pos (Nesting.balanced_iff.2 hlevel), hpoint]
  dsimp only
  rw [List.take_left, hright]

theorem level_of_descend {s : Text} {t : Tree} (h : descend s = .ok t) : level s = 0 := by
  unfold descend at h
  split at h
  · rename_i hbalanced
    exact Nesting.balanced_iff.1 hbalanced
  · cases h

theorem level_of_recursive {s : Text} {t : Tree} (h : recursive s = .ok t) : level s = 0 := by
  rw [recursive_eq] at h
  simpa using level_of_descend h

theorem recursive_blank_append {a : Text} (ha : Text.Blank a) (s : Text) :
    recursive (a ++ s) = recursive s := by
  rw [recursive_eq, recursive_eq, bare_blank_append ha]

theorem recursive_of_inside {s inner : Text} (h : inside? s.trim = some inner) :
    recursive s = descend inner.trim := by
  rw [recursive_eq, bare_of_inside h]

theorem recursive_of_not_inside {s : Text} (h : inside? s.trim = none) :
    recursive s = descend s.trim := by
  rw [recursive_eq, bare_of_not_inside h]

theorem prepare_eq {s : Text} (h : level s = 0) : prepare s = .ok (.ofText s) := by
  rw [prepare, if_pos (Nesting.balanced_iff.2 h)]

theorem exists_operands {rest : Text} (hlast : ∀ c ∈ rest.getLast?, isBlank c = false) {i : Nat}
    {op : Operator} (hpoint : Nesting.firstAfter? 0 rest.trim = some (i, op)) :
    ∃ blanks x right, Text.Blank blanks ∧
      (blanks ++ x ++ op.symbol :: right).takeWhile isBlank = blanks ∧
      rest = blanks ++ x ++ op.symbol :: right ∧
      (blanks ++ x ++ op.symbol :: right).trim = x ++ op.symbol :: right ∧ i = x.length := by
  obtain ⟨x, right, hsplit, hi, -⟩ := Nesting.exists_of_firstAfter? hpoint
  have hrest : rest = rest.takeWhile isBlank ++ x ++ op.symbol :: right := by
    rw [List.append_assoc, ← hsplit, Text.trim_eq_trimLeft hlast, Text.takeWhile_append_trimLeft]
  refine ⟨rest.takeWhile isBlank, x, right, Text.blank_takeWhile rest, ?_, hrest, ?_, hi⟩
  · rw [← hrest]
  · rw [← hrest, ← hsplit]

/-- The loop has read `front`, which is `start` characters long and ends at level zero. The cursors into the
whole of `front ++ rest` have passed nothing of `rest`. -/
structure Resumes (front rest : Text) (start : Nat) (splits : Splits) : Prop where
  length_front : front.length = start
  level_front : level front = 0
  level_rest : level rest = 0
  ahead : Splits.Ahead (front ++ rest) start splits
  last : ∀ c ∈ rest.getLast?, isBlank c = false

theorem resumes_fresh {s : Text} (hlevel : level s = 0) (hs : Text.Trimmed s) :
    Resumes [] s 0 (.ofText s) :=
  ⟨rfl, rfl, hlevel, Splits.ahead_ofText s, hs.last⟩

/-- Behind a balanced left operand and its operator the loop goes on with the cursors it has. -/
theorem Resumes.right {front lhs right : Text} {op : Operator} {start lead : Nat} {splits ahead : Splits}
    (h : Resumes front (lhs ++ op.symbol :: right) start splits) (hlhs : level lhs = 0)
    (hahead : Splits.Ahead (front ++ (lhs ++ op.symbol :: right)) lead ahead)
    (hlead : lead ≤ start + lhs.length + 1) :
    Resumes (front ++ lhs ++ [op.symbol]) right (start + lhs.length + 1) ahead where
  length_front := by simp [h.length_front]; omega
  level_front := by simp [h.level_front, hlhs]
  level_rest := by simpa [hlhs] using h.level_rest
  ahead := by simpa using hahead.mono hlead
  last := by
    have hlast := h.last
    rw [List.append_cons] at hlast
    exact Text.last_of_append hlast

/-- What the cursors answer is the first split point of the rest, counted from the start of the whole. -/
theorem Resumes.next {front rest : Text} {start : Nat} {splits : Splits}
    (h : Resumes front rest start splits) :
    (splits.next (start + (rest.takeWhile isBlank).length)).1 =
        (Nesting.firstAfter? 0 rest.trim).map (fun hit =>
          (start + (rest.takeWhile isBlank).length + hit.1, hit.2)) ∧
      Splits.Ahead (front ++ rest) (start + (rest.takeWhile isBlank).length)
        (splits.next (start + (rest.takeWhile isBlank).length)).2 := by
  obtain ⟨hnext, hahead⟩ := h.ahead.next (Nat.le_add_right start (rest.takeWhile isBlank).length)
  refine ⟨?_, hahead⟩
  have hfront : level (front ++ rest.takeWhile isBlank) = 0 := by
    rw [Nesting.level_append_blank front (Text.blank_takeWhile rest), h.level_front]
  have hmove := Nesting.firstAfter?_append hfront 0 rest.trim
  rwa [List.append_assoc, Text.trim_eq_trimLeft h.last, Text.takeWhile_append_trimLeft,
    List.length_append, h.length_front, Nat.add_zero, ← hnext, ← Text.trim_eq_trimLeft h.last]
    at hmove

theorem Resumes.level_trim {front rest : Text} {start : Nat} {splits : Splits}
    (h : Resumes front rest start splits) : level rest.trim = 0 := by
  rw [Nesting.level_trim, h.level_rest]

theorem spine_leaf {front rest : Text} {start : Nat} {splits : Splits}
    (h : Resumes front rest start splits) (hpoint : Nesting.firstAfter? 0 rest.trim = none)
    (chain : List (Operator × Tree)) :
    spine rest start splits chain = .ok (join chain (.leaf rest.trim)) := by
  obtain ⟨hnext, -⟩ := h.next
  rw [hpoint, Option.map_none] at hnext
  rw [spine_eq]
  generalize splits.next (start + (rest.takeWhile isBlank).length) = found at hnext
  obtain ⟨found, ahead⟩ := found
  obtain rfl : found = none := hnext
  rfl

/-- How the loop goes on behind an operator: with the inside of a group, which gets cursors of its own, or
with the rest of the chain. -/
def resume (right : Text) (start : Nat) (ahead : Splits) (chain : List (Operator × Tree)) :
    Except ParseError Tree :=
  match inside? (Text.trimLeft right) with
  | some inner => (prepare (Text.trim inner)).bind fun splits => spine (Text.trim inner) 0 splits chain
  | none => spine right start ahead chain

theorem resume_inside {right inner : Text} (h : inside? (Text.trimLeft right) = some inner)
    (start : Nat) (ahead : Splits) (chain : List (Operator × Tree)) :
    resume right start ahead chain =
      (prepare (Text.trim inner)).bind fun splits => spine (Text.trim inner) 0 splits chain := by
  rw [resume, h]

theorem resume_not_inside {right : Text} (h : inside? (Text.trimLeft right) = none) (start : Nat)
    (ahead : Splits) (chain : List (Operator × Tree)) :
    resume right start ahead chain = spine right start ahead chain := by
  rw [resume, h]

theorem spine_node {front blanks x right : Text} {op : Operator} {start : Nat} {splits : Splits}
    (h : Resumes front (blanks ++ x ++ op.symbol :: right) start splits)
    (hblanks : (blanks ++ x ++ op.symbol :: right).takeWhile isBlank = blanks)
    (hpoint : Nesting.firstAfter? 0 (blanks ++ x ++ op.symbol :: right).trim = some (x.length, op))
    (chain : List (Operator × Tree)) :
    ∃ ahead, Splits.Ahead (front ++ (blanks ++ x ++ op.symbol :: right)) (start + blanks.length) ahead ∧
      spine (blanks ++ x ++ op.symbol :: right) start splits chain =
        (parse (blanks ++ x)).bind fun lhs =>
          resume right (start + (blanks ++ x).length + 1) ahead ((op, lhs) :: chain) := by
  obtain ⟨hnext, hahead⟩ := h.next
  rw [hpoint, Option.map_some, hblanks] at hnext
  rw [hblanks] at hahead
  rw [spine_eq, hblanks]
  generalize splits.next (start + blanks.length) = found at hnext hahead
  obtain ⟨found, ahead⟩ := found
  obtain rfl : found = some (start + blanks.length + x.length, op) := hnext
  refine ⟨ahead, hahead, ?_⟩
  have hposition : start + blanks.length + x.length = start + (blanks ++ x).length := by
    rw [List.length_append, Nat.add_assoc]
  simp only [hposition, Nat.add_sub_cancel_left, List.drop_left, List.take_left]
  cases parse (blanks ++ x) with
  | error e => rfl
  | ok lhs =>
    change _ = resume right _ ahead _
    cases hinside : inside? (Text.trimLeft right) with
    | none => rw [resume_not_inside hinside]
    | some inner =>
      rw [resume_inside hinside]
      cases hprepare : prepare (Text.trim inner) <;> simp only [hprepare, Except.bind]

theorem map_join (read : Except ParseError Tree) (op : Operator) (lhs : Tree)
    (chain : List (Operator × Tree)) :
    (read.map (.node op lhs)).map (join chain) = read.map (join ((op, lhs) :: chain)) := by
  cases read <;> rfl

theorem resume_eq {n : Nat} {front right : Text} {start : Nat} {ahead : Splits}
    (hspine : ∀ {front rest : Text} {start : Nat} {splits : Splits}, Resumes front rest start splits →
      rest.length < n → ∀ chain, spine rest start splits chain = (descend rest.trim).map (join chain))
    (h : Resumes front right start ahead) (hn : right.length < n) (chain : List (Operator × Tree)) :
    resume right start ahead chain = (recursive right).map (join chain) := by
  have htrim := Text.trim_eq_trimLeft h.last
  cases hinside : inside? right.trim with
  | none =>
    rw [resume_not_inside (htrim ▸ hinside), recursive_of_not_inside hinside]
    exact hspine h hn chain
  | some inner =>
    have hshort : inner.trim.length < n := by
      have hlt := Nesting.length_inside?_lt hinside
      have hinner := Text.length_trim_le inner
      have hright := Text.length_trim_le right
      omega
    have hfresh := resumes_fresh
      (by rw [Nesting.level_trim, Nesting.level_inside hinside, h.level_trim])
      (Text.trimmed_trim inner)
    have hgroup := hspine hfresh hshort chain
    rw [Text.trim_trim] at hgroup
    rw [resume_inside (htrim ▸ hinside), recursive_of_inside hinside, prepare_eq hfresh.level_rest]
    exact hgroup

/-- From any point it can come to, the loop reads the rest as the plain recursion does, and hangs the chain
so far over it. Left operands are shorter than `n`, the bound below which both readings agree. -/
theorem spine_eq_descend {n : Nat} (hparse : ∀ s : Text, s.length < n → parse s = recursive s)
    {front rest : Text} {start : Nat} {splits : Splits} (h : Resumes front rest start splits)
    (hlen : rest.length ≤ n) (chain : List (Operator × Tree)) :
    spine rest start splits chain = (descend rest.trim).map (join chain) := by
  induction hk : rest.length using Nat.strong_induction_on
    generalizing front rest start splits chain with
  | h k ih =>
    cases hpoint : Nesting.firstAfter? 0 rest.trim with
    | none => rw [spine_leaf h hpoint, descend_leaf h.level_trim hpoint]; rfl
    | some hit =>
      obtain ⟨i, op⟩ := hit
      obtain ⟨blanks, x, right, hblank, hblanks, rfl, htrim, rfl⟩ := exists_operands h.last hpoint
      have hlength : (blanks ++ x).length + (right.length + 1) = k := by
        rw [← hk, ← List.length_cons, ← List.length_append]
      obtain ⟨ahead, hahead, hspine⟩ := spine_node h hblanks hpoint chain
      rw [hspine, hparse _ (by omega), recursive_blank_append hblank, htrim,
        descend_node (htrim ▸ h.level_trim) (htrim ▸ hpoint)]
      cases hlhs : recursive x with
      | error e => rfl
      | ok lhs =>
        have hlevel : level (blanks ++ x) = 0 := by
          simp [Nesting.level_blank hblank, level_of_recursive hlhs]
        have hright := h.right hlevel hahead (by simp; omega)
        refine (resume_eq ?_ hright (n := k) (by omega) _).trans (map_join _ op lhs chain).symm
        exact fun hrest hlt chain => ih _ hlt hrest (by omega) chain rfl

theorem parse_eq_descend (s : Text) : parse s = descend (bare s) := by
  induction hn : s.length using Nat.strong_induction_on generalizing s with
  | h n ih =>
    by_cases hbalanced : Nesting.balanced (bare s)
    · have hfresh := resumes_fresh (Nesting.balanced_iff.1 hbalanced) (trimmed_bare s)
      have hshorter : ∀ s' : Text, s'.length < n → parse s' = recursive s' := by
        intro s' hs'
        rw [recursive_eq]
        exact ih _ hs' s' rfl
      have hloop := spine_eq_descend hshorter hfresh (hn ▸ length_bare_le s) []
      rw [Text.trim_eq_self (trimmed_bare s)] at hloop
      rw [parse, prepare_eq hfresh.level_rest]
      dsimp only
      rw [hloop]
      cases descend (bare s) <;> rfl
    · rw [parse, prepare, descend, if_neg hbalanced, if_neg hbalanced]

/-- Reading by the loop, with one scan and moving cursors for a whole chain, is reading by plain recursion:
the same tree, or the same error about the same operand. -/
theorem parse_eq_recursive (s : Text) : parse s = recursive s := by
  rw [parse_eq_descend, recursive_eq]

end Parse
end ReversePolish
