import ReversePolish.Proofs.Written

/-! A tree is written piece by piece. What has been written and what the pieces still stand for make the written form
of the tree at every step, and each piece is taken off once: one for a leaf, and for a node six, the node itself and the
four texts besides its operands. -/
namespace ReversePolish
namespace Tree

/-- The pieces still to be written, and what has been written, the last character first. -/
structure Page where
  pieces : List Piece
  written : Text

namespace Page

def full (page : Page) : Text := page.written.reverse ++ page.pieces.flatMap Piece.owed

def step? : Page → Option Page
  | ⟨[], _⟩ => none
  | ⟨.text s :: pieces, written⟩ => some ⟨pieces, s.reverse ++ written⟩
  | ⟨.tree (leaf text) :: pieces, written⟩ => some ⟨pieces, text.reverse ++ written⟩
  | ⟨.tree (node op lhs rhs) :: pieces, written⟩ =>
    some ⟨.tree lhs :: .text [' '] :: .text [op.symbol] :: .text [' '] :: .tree rhs :: .text [')'] :: pieces,
      '(' :: written⟩

inductive Takes : Nat → Page → Page → Prop
  | refl (page : Page) : Takes 0 page page
  | step {steps : Nat} {page next last : Page} (hstep : page.step? = some next)
    (hnext : Takes steps next last) : Takes (steps + 1) page last

theorem write_of_step? {page next : Page} (h : page.step? = some next) :
    write page.pieces page.written = write next.pieces next.written := by
  fun_cases step? page with
  | case1 => cases h
  | case2 s pieces written =>
    cases h
    rw [write]
  | case3 text pieces written =>
    cases h
    rw [write]
  | case4 op lhs rhs pieces written =>
    cases h
    rw [write]

theorem full_of_step? {page next : Page} (h : page.step? = some next) : next.full = page.full := by
  simp only [full, ← write_eq, write_of_step? h]

namespace Takes

theorem trans {m n : Nat} {first page last : Page} (h : Takes m first page) (hlast : Takes n page last) :
    Takes (m + n) first last := by
  induction h with
  | refl page => rwa [Nat.zero_add]
  | step hstep _ ih =>
    rw [Nat.add_right_comm]
    exact .step hstep (ih hlast)

theorem full_eq {steps : Nat} {page last : Page} (h : Takes steps page last) : last.full = page.full := by
  induction h with
  | refl page => rfl
  | step hstep _ ih => rw [ih, full_of_step? hstep]

theorem write_eq {steps : Nat} {page last : Page} (h : Takes steps page last) :
    write last.pieces last.written = write page.pieces page.written := by
  rw [Tree.write_eq, Tree.write_eq]
  exact h.full_eq

end Takes

/-- A tree is written before anything behind it is touched. -/
theorem exists_takes (t : Tree) (pieces : List Piece) (written : Text) :
    ∃ steps, steps + 2 = 3 * t.size ∧
      Takes steps ⟨.tree t :: pieces, written⟩ ⟨pieces, t.bracketed.reverse ++ written⟩ := by
  induction t generalizing pieces written with
  | leaf text => exact ⟨1, rfl, .step rfl (.refl _)⟩
  | node op lhs rhs ihlhs ihrhs =>
    obtain ⟨m, hm, hlhs⟩ := ihlhs
      (.text [' '] :: .text [op.symbol] :: .text [' '] :: .tree rhs :: .text [')'] :: pieces) ('(' :: written)
    obtain ⟨n, hn, hrhs⟩ := ihrhs (.text [')'] :: pieces)
      (' ' :: op.symbol :: ' ' :: (lhs.bracketed.reverse ++ '(' :: written))
    refine ⟨m + (n + 1 + 3) + 1, by simp only [size]; omega, .step rfl (hlhs.trans ?_)⟩
    -- the symbol between the operands, the right operand, and the parenthesis that closes the node
    have hclose := hrhs.trans (.step rfl (.refl _))
    have hbracketed : (node op lhs rhs).bracketed.reverse ++ written =
        ')' :: (rhs.bracketed.reverse ++
          (' ' :: op.symbol :: ' ' :: (lhs.bracketed.reverse ++ '(' :: written))) := by
      simp [bracketed]
    rw [hbracketed]
    exact .step rfl (.step rfl (.step rfl hclose))

end Page

/-- The written form of a tree is the one given by recursion: a leaf is its text, and a node its two operands in
parentheses with its symbol between single spaces. It is complete after one step for every leaf and six for every node,
and at every step before, what has been written goes before what the pieces then stand for. -/
theorem written_by_pieces (t : Tree) :
    t.written = t.bracketed ∧
      (∃ steps, steps + 2 = 3 * t.size ∧ Page.Takes steps ⟨[.tree t], []⟩ ⟨[], t.written.reverse⟩) ∧
      ∀ steps page, Page.Takes steps ⟨[.tree t], []⟩ page →
        page.written.reverse ++ page.pieces.flatMap Piece.owed = t.bracketed ∧
          write page.pieces page.written = t.written := by
  have hwritten : t.written = t.bracketed := by simp [written, write_eq, Piece.owed]
  refine ⟨hwritten, ?_, fun steps page h => ⟨?_, h.write_eq⟩⟩
  · obtain ⟨steps, hsteps, htakes⟩ := Page.exists_takes t [] []
    rw [List.append_nil] at htakes
    exact ⟨steps, hsteps, hwritten ▸ htakes⟩
  · have hfull := h.full_eq
    rwa [Page.full, Page.full, List.flatMap_singleton, List.reverse_nil, List.nil_append] at hfull

/-- In front of the second right operand. -/
theorem written_by_pieces_nested :
    (node .sub (leaf ['1']) (node .pow (leaf ['2']) (leaf ['3']))).written = "(1 - (2 ^ 3))".toList ∧
    ∃ page, Page.Takes 10 ⟨[.tree (node .sub (leaf ['1']) (node .pow (leaf ['2']) (leaf ['3'])))], []⟩ page ∧
      page.written.reverse = "(1 - (2 ^ ".toList ∧ page.pieces.flatMap Piece.owed = "3))".toList ∧
      page.written.reverse ++ page.pieces.flatMap Piece.owed = "(1 - (2 ^ 3))".toList := by
  have htakes : Page.Takes 10 ⟨[.tree (node .sub (leaf ['1']) (node .pow (leaf ['2']) (leaf ['3'])))], []⟩
      ⟨[.tree (leaf ['3']), .text [')'], .text [')']], "(1 - (2 ^ ".toList.reverse⟩ :=
    .step rfl (.step rfl (.step rfl (.step rfl (.step rfl (.step rfl (.step rfl (.step rfl (.step rfl
      (.step rfl (.refl _))))))))))
  obtain ⟨hwritten, -, hinvariant⟩ :=
    written_by_pieces (node .sub (leaf ['1']) (node .pow (leaf ['2']) (leaf ['3'])))
  exact ⟨hwritten, _, htakes, rfl, rfl, (hinvariant _ _ htakes).1⟩

end Tree
end ReversePolish
