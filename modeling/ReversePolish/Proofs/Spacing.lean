import Mathlib.Logic.Relation
import ReversePolish.Proofs.Failure

/-! Blanks around operators. A sign is known by its place, at the beginning of its operand, so blanks behind an operator
may take an operand from it. Before an operator that is exposed they do not count, nor behind one that has an operand
before it: there the blanks are at an end of an operand once the text is split at the operator. -/
namespace ReversePolish
namespace Nesting

/-- Blanks aside, the text ends in a character that is no operator. -/
def EndsOperand (x : Text) : Prop :=
  ∃ front c blanks, x = front ++ c :: blanks ∧ isBlank c = false ∧ (∀ op, c ≠ Operator.symbol op) ∧
    Text.Blank blanks

/-- A text, and the text with blanks put in at one place: before an exposed operator, or behind an exposed operator
with an operand before it. -/
inductive Spaced : Text → Text → Prop
  | before {x y blanks : Text} {op : Operator} (hexposed : level x ≤ 0) (hblanks : Text.Blank blanks) :
    Spaced (x ++ op.symbol :: y) (x ++ blanks ++ op.symbol :: y)
  | behind {x y blanks : Text} {op : Operator} (hexposed : level x ≤ 0) (hoperand : EndsOperand x)
    (hblanks : Text.Blank blanks) :
    Spaced (x ++ op.symbol :: y) (x ++ op.symbol :: (blanks ++ y))

namespace EndsOperand

theorem not_blank {x : Text} (h : EndsOperand x) : ¬Text.Blank x := by
  obtain ⟨front, c, blanks, rfl, hc, -⟩ := h
  intro hblank
  have hcBlank := hblank c (by simp)
  rw [hc] at hcBlank
  cases hcBlank

theorem trimLeft {x : Text} (h : EndsOperand x) : EndsOperand (Text.trimLeft x) := by
  obtain ⟨front, c, blanks, rfl, hc, hop, hblanks⟩ := h
  by_cases hfront : Text.Blank front
  · refine ⟨[], c, blanks, ?_, hc, hop, hblanks⟩
    rw [Text.trimLeft_blank_append hfront, Text.trimLeft_eq_self (by simp [hc]), List.nil_append]
  · exact ⟨Text.trimLeft front, c, blanks, Text.trimLeft_append hfront _, hc, hop, hblanks⟩

theorem of_append_cons {x y : Text} {op : Operator} (h : EndsOperand (x ++ op.symbol :: y)) :
    EndsOperand y := by
  obtain ⟨front, c, blanks, hsplit, hc, hop, hblanks⟩ := h
  rcases List.append_eq_append_iff.1 hsplit with ⟨z, -, hy⟩ | ⟨z, -, hz⟩
  · cases z with
    | nil => exact absurd (List.cons.inj hy).1.symm (hop op)
    | cons d z =>
      obtain ⟨-, rfl⟩ := List.cons.inj hy
      exact ⟨z, c, blanks, rfl, hc, hop, hblanks⟩
  · cases z with
    | nil => exact absurd (List.cons.inj hz).1 (hop op)
    | cons d z =>
      obtain ⟨-, rfl⟩ := List.cons.inj hz
      exact absurd (by simp) (op.symbol_notMem_of_blank hblanks)

end EndsOperand

/-- A cut between two texts, neither of them blank, where an operator follows, or one with an operand before it has
come just before. -/
structure Seam (u v : Text) : Prop where
  level_eq : level u = 0
  left : ¬Text.Blank u
  right : ¬Text.Blank v
  adjacent : (∃ op y, v = Operator.symbol op :: y) ∨ ∃ x op, u = x ++ [Operator.symbol op] ∧ EndsOperand x

def Loose (u v : Text) : Prop := (Text.Blank u ∨ Text.Blank v) ∨ Seam u v

namespace Seam

variable {u v blanks : Text}

/-- Whatever blanks are in the seam, an operator is exposed beside it that is no sign. -/
theorem exists_exposed (h : Seam u v) (hblanks : Text.Blank blanks) :
    ∃ x op y, u ++ blanks ++ v = x ++ Operator.symbol op :: y ∧ ¬Text.Blank x ∧ level x = 0 := by
  rcases h.adjacent with ⟨op, y, rfl⟩ | ⟨x, op, rfl, hoperand⟩
  · refine ⟨u ++ blanks, op, y, rfl, fun hblank => h.left ?_, ?_⟩
    · exact fun c hc => hblank c (List.mem_append_left _ hc)
    · rw [level_append_blank u hblanks, h.level_eq]
  · refine ⟨x, op, blanks ++ v, by simp, hoperand.not_blank, ?_⟩
    simpa using h.level_eq

theorem trim (h : Seam u v) : Seam u.trimLeft v.trimRight where
  level_eq := by rw [level_trimLeft, h.level_eq]
  left := Text.not_blank_trimLeft h.left
  right := Text.not_blank_trimRight h.right
  adjacent := by
    rcases h.adjacent with ⟨op, y, rfl⟩ | ⟨x, op, rfl, hoperand⟩
    · exact .inl ⟨op, Text.trimRight y, Text.trimRight_append_cons op.isBlank_symbol [] y⟩
    · exact .inr ⟨x.trimLeft, op, Text.trimLeft_append hoperand.not_blank _, hoperand.trimLeft⟩

theorem left_operand {w y : Text} {op : Operator} (h : Seam u (w ++ op.symbol :: y)) : Loose u w := by
  by_cases hw : Text.Blank w
  · exact .inl (.inr hw)
  · refine .inr ⟨h.level_eq, h.left, hw, h.adjacent.imp_left ?_⟩
    rintro ⟨f, z, hz⟩
    cases w with
    | nil => exact absurd Text.blank_nil hw
    | cons c w =>
      obtain ⟨rfl, -⟩ := List.cons.inj hz
      exact ⟨f, w, rfl⟩

theorem right_operand {x w : Text} {op : Operator} (h : Seam (x ++ op.symbol :: w) v)
    (hx : level x = 0) : Loose w v := by
  by_cases hw : Text.Blank w
  · exact .inl (.inl hw)
  · refine .inr ⟨?_, hw, h.right, h.adjacent.imp_right ?_⟩
    · simpa [hx] using h.level_eq
    · rintro ⟨z, f, hz, hoperand⟩
      rcases List.eq_nil_or_concat w with rfl | ⟨w, c, rfl⟩
      · exact absurd Text.blank_nil hw
      · rw [List.concat_eq_append, ← List.cons_append, ← List.append_assoc] at hz
        obtain ⟨rfl, hc⟩ := List.append_inj' hz rfl
        rw [List.concat_eq_append, (List.cons.inj hc).1]
        exact ⟨w, f, rfl, hoperand.of_append_cons⟩

end Seam

theorem loose_before {x : Text} (hx : level x = 0) (op : Operator) (y : Text) :
    Loose x (op.symbol :: y) := by
  by_cases hblank : Text.Blank x
  · exact .inl (.inl hblank)
  · exact .inr ⟨hx, hblank, Text.not_blank_cons op.isBlank_symbol y, .inl ⟨op, y, rfl⟩⟩

theorem loose_behind {x : Text} (hx : level x = 0) (hoperand : EndsOperand x) (op : Operator)
    (y : Text) : Loose (x ++ [op.symbol]) y := by
  by_cases hblank : Text.Blank y
  · exact .inl (.inr hblank)
  · refine .inr ⟨by simpa using hx, ?_, hblank, .inr ⟨x, op, rfl, hoperand⟩⟩
    exact fun hleft => hoperand.not_blank fun c hc => hleft c (List.mem_append_left _ hc)

theorem append_blank_eq_append_cons {u v blanks x y : Text} {op : Operator} (hblanks : Text.Blank blanks)
    (h : u ++ blanks ++ v = x ++ op.symbol :: y) :
    (∃ w, v = w ++ op.symbol :: y ∧ x = u ++ blanks ++ w) ∨
      ∃ w, u = x ++ op.symbol :: w ∧ y = w ++ blanks ++ v := by
  have hsymbol := op.symbol_notMem_of_blank hblanks
  rcases List.append_eq_append_iff.1 h with ⟨w, hx, hv⟩ | ⟨w, hu, hy⟩
  · exact .inl ⟨w, hv, hx⟩
  · cases w with
    | nil => exact .inl ⟨[], hy.symm, by simpa using hu.symm⟩
    | cons c w =>
      obtain ⟨rfl, rfl⟩ := List.cons.inj hy
      rcases List.append_eq_append_iff.1 hu with ⟨z, -, hz⟩ | ⟨z, hz, hw⟩
      · have hmem : op.symbol ∈ z ++ op.symbol :: w := List.mem_append_right z List.mem_cons_self
        exact absurd (hz ▸ hmem) hsymbol
      · cases z with
        | nil =>
          obtain rfl : op.symbol :: w = blanks := hw
          exact absurd List.mem_cons_self hsymbol
        | cons d z =>
          obtain ⟨rfl, rfl⟩ := List.cons.inj hw
          exact .inr ⟨z, hz, rfl⟩

/-- The blanks in a text hide no operator of it, and show none. -/
theorem exists_exposes_respace {u v blanks blanks' : Text} {op : Operator} {i : Nat} (hu : level u = 0)
    (hblanks : Text.Blank blanks) (hblanks' : Text.Blank blanks')
    (h : exposes (u ++ blanks ++ v) op i = true) :
    ∃ j, exposes (u ++ blanks' ++ v) op j = true ∧ (u ≠ [] → 0 < i → 0 < j) := by
  have hlevel : ∀ {a : Text}, Text.Blank a → level (u ++ a) = 0 := by
    intro a ha
    rw [level_append_blank u ha, hu]
  rcases exposes_append_cases (hlevel hblanks) h with hleft | ⟨k, -, hright⟩
  · rcases exposes_append_cases hu hleft with hleft | ⟨k, -, hblank⟩
    · have hlt := (exists_of_exposes hleft).2.1
      refine ⟨i, ?_, fun _ hi => hi⟩
      rwa [List.append_assoc, exposes_append_left hlt]
    · rw [exposes_blank hblanks] at hblank
      cases hblank
  · refine ⟨(u ++ blanks').length + k, ?_, fun hne _ => ?_⟩
    · rwa [exposes_append_right (hlevel hblanks')]
    · have hpos := List.length_pos_iff.2 hne
      rw [List.length_append]
      omega

end Nesting

namespace Parse

open Nesting (level Seam Loose Spaced)

theorem bare_respace {u v blanks blanks' : Text} (h : Text.Blank u ∨ Text.Blank v)
    (hblanks : Text.Blank blanks) (hblanks' : Text.Blank blanks') :
    bare (u ++ blanks ++ v) = bare (u ++ blanks' ++ v) := by
  rcases h with hu | hv
  · simp only [List.append_assoc, bare_blank_append hu, bare_blank_append hblanks,
      bare_blank_append hblanks']
  · simp only [bare_append_blank hv, bare_append_blank hblanks, bare_append_blank hblanks']

theorem bare_of_seam {u v blanks : Text} (h : Seam u v) (hblanks : Text.Blank blanks) :
    bare (u ++ blanks ++ v) = u.trimLeft ++ blanks ++ v.trimRight ∧
      Nesting.firstAfter? 0 (bare (u ++ blanks ++ v)) ≠ none := by
  obtain ⟨x, op, y, hsplit, hx, hlevel⟩ := h.trim.exists_exposed hblanks
  have hne : x ≠ [] := by
    rintro rfl
    exact hx Text.blank_nil
  have htrim := Text.trim_append h.left h.right blanks
  have hbare : bare (u ++ blanks ++ v) = u.trimLeft ++ blanks ++ v.trimRight := by
    rw [bare_of_not_inside, htrim]
    rw [htrim, hsplit]
    exact Nesting.inside?_append hne (List.cons_ne_nil _ _) hlevel
  refine ⟨hbare, fun hpoint => ?_⟩
  rw [hbare, hsplit] at hpoint
  have hpos := Nesting.level_pos_of_firstAfter?_eq_none hpoint hne
  omega

/-- Other blanks at such a cut, or none, do not change what is read. -/
theorem Reads.respace {u v blanks blanks' : Text} {t : Tree} (h : Reads (u ++ blanks ++ v) t)
    (hloose : Loose u v) (hblanks : Text.Blank blanks) (hblanks' : Text.Blank blanks') :
    Reads (u ++ blanks' ++ v) t := by
  generalize hs : u ++ blanks ++ v = s at h
  induction h generalizing u v with
  | @leaf s hlevel hpoint =>
    subst hs
    rcases hloose with hblank | hseam
    · exact (Reads.leaf hlevel hpoint).congr (bare_respace hblank hblanks' hblanks)
    · exact absurd hpoint (bare_of_seam hseam hblanks).2
  | @node s x y op lhs rhs hbare hpoint hlhs hrhs ihlhs ihrhs =>
    subst hs
    rcases hloose with hblank | hseam
    · exact (Reads.node hbare hpoint hlhs hrhs).congr (bare_respace hblank hblanks' hblanks)
    · have hsplit := (bare_of_seam hseam hblanks).1
      have hsplit' := (bare_of_seam hseam hblanks').1
      have htrim := hseam.trim
      have hne : u.trimLeft ≠ [] := by
        intro hnil
        exact htrim.left (hnil ▸ Text.blank_nil)
      rw [hbare] at hsplit hpoint
      obtain ⟨hx, hleft, hright⟩ := (Nesting.firstAfter?_split_iff hlhs.level_eq).1 hpoint
      rcases Nesting.append_blank_eq_append_cons hblanks hsplit.symm with ⟨w, hv, rfl⟩ | ⟨w, hu, rfl⟩
      · -- the cut is in the left operand, or just before the operator
        rw [hv] at htrim hsplit'
        have hlhs' := ihlhs htrim.left_operand rfl
        rw [← List.append_assoc] at hsplit'
        refine .node hsplit' ?_ hlhs' hrhs
        rw [hsplit', Nesting.firstAfter?_split_iff hlhs'.level_eq]
        refine ⟨by simp [hne], fun f i hi hf => ?_, hright⟩
        obtain ⟨j, hj, hpos⟩ := Nesting.exists_exposes_respace htrim.level_eq hblanks' hblanks hf
        exact hleft f j (hpos hne hi) hj
      · -- the cut is in the right operand, or just behind the operator
        rw [hu] at htrim hsplit'
        have hrhs' := ihrhs (htrim.right_operand hlhs.level_eq) rfl
        have hw : level w = 0 := by simpa [hlhs.level_eq] using htrim.level_eq
        have hregroup : x ++ op.symbol :: w ++ blanks' ++ v.trimRight =
            x ++ op.symbol :: (w ++ blanks' ++ v.trimRight) := by simp
        rw [hregroup] at hsplit'
        refine .node hsplit' ?_ hlhs hrhs'
        rw [hsplit', Nesting.firstAfter?_split_iff hlhs.level_eq]
        refine ⟨hx, hleft, fun f i hf => ?_⟩
        obtain ⟨j, hj, -⟩ := Nesting.exists_exposes_respace hw hblanks' hblanks hf
        exact hright f j hj

theorem reads_respace_iff {u v blanks : Text} {t : Tree} (hloose : Loose u v)
    (hblanks : Text.Blank blanks) : Reads (u ++ blanks ++ v) t ↔ Reads (u ++ v) t := by
  constructor
  · intro h
    simpa using h.respace hloose hblanks Text.blank_nil
  · intro h
    rw [← List.append_nil u] at h
    exact h.respace hloose Text.blank_nil hblanks

theorem Reads.level_left_eq {x y : Text} {op : Operator} {t : Tree} (h : Reads (x ++ op.symbol :: y) t)
    (hx : level x ≤ 0) : level x = 0 := by
  have hguarded := (Nesting.guarded_symbol.1 (Nesting.guarded_append.1 h.guarded).2).1
  omega

/-- Blanks at one place. Where the operator is below level zero neither text is read. -/
theorem reads_spaced_iff {s s' : Text} {t : Tree} (h : Spaced s s') : Reads s' t ↔ Reads s t := by
  cases h with
  | @before x y blanks op hexposed hblanks =>
    by_cases hx : level x = 0
    · exact reads_respace_iff (Nesting.loose_before hx op y) hblanks
    · have hlevel := Nesting.level_append_blank x hblanks
      refine iff_of_false (fun hreads => hx ?_) fun hreads => hx (hreads.level_left_eq hexposed)
      rw [← hlevel] at hexposed ⊢
      exact hreads.level_left_eq hexposed
  | @behind x y blanks op hexposed hoperand hblanks =>
    by_cases hx : level x = 0
    · have hrespace := reads_respace_iff (t := t) (Nesting.loose_behind hx hoperand op y) hblanks
      simpa using hrespace
    · exact iff_of_false (fun hreads => hx (hreads.level_left_eq hexposed))
        fun hreads => hx (hreads.level_left_eq hexposed)

/-- Blanks before exposed operators, and behind exposed operators that have an operand before them, do not count: the
text with such blanks, put in place by place, is read as a tree exactly if the text without them is read as this
tree. -/
theorem parse_spaced {s s' : Text} (h : Relation.ReflTransGen Spaced s s') (t : Tree) :
    parse s' = .ok t ↔ parse s = .ok t := by
  induction h with
  | refl => rfl
  | tail _ hspaced ih => rw [← ih, parse_eq_ok_iff, parse_eq_ok_iff, reads_spaced_iff hspaced]

/-- A minus behind an operand, and one behind a product that stands before it without a second operand. -/
theorem parse_spaced_twice :
    Relation.ReflTransGen Spaced "1-2*-3".toList "1- 2*\u2003\n-3".toList ∧
    parse "1-2*-3".toList = .ok (.node .sub (.leaf ['1'])
      (.node .sub (.node .mul (.leaf ['2']) (.leaf [])) (.leaf ['3']))) ∧
    parse "1- 2*\u2003\n-3".toList = .ok (.node .sub (.leaf ['1'])
      (.node .sub (.node .mul (.leaf ['2']) (.leaf [])) (.leaf ['3']))) := by
  have hspaced : Relation.ReflTransGen Spaced "1-2*-3".toList "1- 2*\u2003\n-3".toList := by
    have hone : Nesting.EndsOperand ['1'] :=
      ⟨[], '1', [], rfl, by decide, fun op => by cases op <;> decide, Text.blank_nil⟩
    have hwide : Text.Blank "\u2003\n".toList := Text.blank_of_all (by decide)
    have hbehind : Spaced (['1'] ++ Operator.symbol .sub :: "2*-3".toList)
        (['1'] ++ Operator.symbol .sub :: ([' '] ++ "2*-3".toList)) :=
      .behind (by decide) hone Text.blank_space
    have hbefore : Spaced ("1- 2*".toList ++ Operator.symbol .sub :: ['3'])
        ("1- 2*".toList ++ "\u2003\n".toList ++ Operator.symbol .sub :: ['3']) :=
      .before (by decide) hwide
    exact (Relation.ReflTransGen.single hbehind).tail hbefore
  have hproduct : Reads "2*".toList (.node .mul (.leaf ['2']) (.leaf [])) :=
    .node (by decide) (by decide) (.leaf (s := ['2']) (by decide) (by decide))
      (.leaf (s := []) (by decide) (by decide))
  have hrhs : Reads "2*-3".toList
      (.node .sub (.node .mul (.leaf ['2']) (.leaf [])) (.leaf ['3'])) :=
    .node (by decide) (by decide) hproduct (.leaf (s := ['3']) (by decide) (by decide))
  have hparse : parse "1-2*-3".toList = .ok (.node .sub (.leaf ['1'])
      (.node .sub (.node .mul (.leaf ['2']) (.leaf [])) (.leaf ['3']))) :=
    parse_eq_ok_iff.2 (.node (by decide) (by decide) (.leaf (s := ['1']) (by decide) (by decide)) hrhs)
  exact ⟨hspaced, hparse, (parse_spaced hspaced _).2 hparse⟩

end Parse
end ReversePolish
