import Mathlib.Data.List.Infix
import ReversePolish.Parse
import ReversePolish.Proofs.Trim

/-! The level of a text is the number of parentheses it opens less the number it closes. What can stand
inside a pair of parentheses is a text no front of which has a negative level; these are the texts that
lose their outer pair. -/
namespace ReversePolish
namespace Operator

@[simp] theorem isBlank_symbol (op : Operator) : isBlank op.symbol = false := by
  cases op <;> decide

@[simp] theorem shift_symbol (op : Operator) : Nesting.shift op.symbol = 0 := by
  cases op <;> rfl

theorem symbol_injective {f g : Operator} (h : f.symbol = g.symbol) : f = g := by
  have hf := ofSymbol?_symbol f
  rw [h, ofSymbol?_symbol] at hf
  exact (Option.some.inj hf).symm

@[simp] theorem symbol_inj {f g : Operator} : f.symbol = g.symbol ↔ f = g :=
  ⟨symbol_injective, congrArg symbol⟩

theorem symbol_notMem_of_blank {a : Text} (ha : Text.Blank a) (op : Operator) : op.symbol ∉ a := by
  intro hmem
  have hsymbol := ha _ hmem
  rw [isBlank_symbol] at hsymbol
  cases hsymbol

end Operator

namespace Nesting

/-- How many more parentheses a text opens than it closes. -/
def level (s : Text) : Int := s.count '(' - s.count ')'

theorem shift_eq (c : Char) :
    shift c = (if c = '(' then 1 else 0) - (if c = ')' then 1 else 0) := by
  unfold shift
  split
  · rfl
  · rfl
  · rename_i hopen hclose
    rw [if_neg hopen, if_neg hclose]
    rfl

@[simp] theorem shift_open : shift '(' = 1 := rfl

@[simp] theorem shift_close : shift ')' = -1 := rfl

@[simp] theorem level_nil : level [] = 0 := rfl

@[simp] theorem level_cons (c : Char) (s : Text) : level (c :: s) = shift c + level s := by
  simp only [level, shift_eq, List.count_cons, beq_iff_eq]
  split_ifs <;> push_cast <;> omega

@[simp] theorem level_append (x y : Text) : level (x ++ y) = level x + level y := by
  simp only [level, List.count_append]
  push_cast
  omega

theorem level_group (inner : Text) : level ('(' :: inner ++ [')']) = level inner := by
  simp only [List.cons_append, level_cons, level_append, level_nil, shift_open, shift_close]
  omega

theorem level_eq_zero_iff {s : Text} : level s = 0 ↔ s.count '(' = s.count ')' := by
  rw [level]
  omega

theorem level_neg_iff {s : Text} : level s < 0 ↔ s.count '(' < s.count ')' := by
  rw [level]
  omega

theorem level_pos_iff {s : Text} : 0 < level s ↔ s.count ')' < s.count '(' := by
  rw [level]
  omega

theorem balanced_iff {s : Text} : balanced s = true ↔ level s = 0 := by
  simp only [balanced, level, beq_iff_eq]
  omega

theorem neg_one_le_shift (c : Char) : -1 ≤ shift c := by
  unfold shift
  split <;> omega

theorem shift_blank {c : Char} (hc : isBlank c = true) : shift c = 0 := by
  unfold shift
  split
  · exact absurd hc (by decide)
  · exact absurd hc (by decide)
  · rfl

theorem shift_of_notMem {s : Text} (hopen : '(' ∉ s) (hclose : ')' ∉ s) : ∀ c ∈ s, shift c = 0 := by
  intro c hc
  have hopen' : c ≠ '(' := fun heq => hopen (heq ▸ hc)
  have hclose' : c ≠ ')' := fun heq => hclose (heq ▸ hc)
  rw [shift_eq, if_neg hopen', if_neg hclose']
  rfl

theorem level_of_shift {s : Text} (h : ∀ c ∈ s, shift c = 0) : level s = 0 := by
  induction s with
  | nil => rfl
  | cons c s ih =>
    obtain ⟨hc, hs⟩ := List.forall_mem_cons.1 h
    rw [level_cons, hc, ih hs, Int.zero_add]

theorem level_blank {a : Text} (ha : Text.Blank a) : level a = 0 :=
  level_of_shift fun c hc => shift_blank (ha c hc)

theorem level_append_blank (x : Text) {a : Text} (ha : Text.Blank a) : level (x ++ a) = level x := by
  rw [level_append, level_blank ha, Int.add_zero]

theorem level_trimLeft (s : Text) : level s.trimLeft = level s := by
  conv_rhs => rw [← Text.takeWhile_append_trimLeft s]
  rw [level_append, level_blank (Text.blank_takeWhile s), Int.zero_add]

@[simp] theorem level_trim (s : Text) : level s.trim = level s := by
  obtain ⟨a, b, ha, hb, hs⟩ := Text.exists_trim s
  conv_rhs => rw [hs]
  simp [level_blank ha, level_blank hb]

def Enclosable (s : Text) : Prop := ∀ x, x <+: s → 0 ≤ level x

/-- Properly nested: no front closes more than it opens, and in the end all is closed. -/
structure Nested (s : Text) : Prop where
  enclosable : Enclosable s
  level_eq : level s = 0

theorem nested_of_shift {s : Text} (h : ∀ c ∈ s, shift c = 0) : Nested s where
  enclosable := by
    intro x hx
    exact Int.le_of_eq (level_of_shift fun c hc => h c (hx.subset hc)).symm
  level_eq := level_of_shift h

theorem nested_blank {a : Text} (ha : Text.Blank a) : Nested a :=
  nested_of_shift fun c hc => shift_blank (ha c hc)

theorem Nested.append {x y : Text} (hx : Nested x) (hy : Nested y) : Nested (x ++ y) where
  enclosable := by
    intro p hp
    rcases List.prefix_or_prefix_of_prefix hp (List.prefix_append x y) with hpx | hxp
    · exact hx.enclosable p hpx
    · obtain ⟨q, rfl⟩ := hxp
      have hq := hy.enclosable q ((List.prefix_append_right_inj x).1 hp)
      rw [level_append, hx.level_eq]
      omega
  level_eq := by rw [level_append, hx.level_eq, hy.level_eq, Int.add_zero]

theorem Nested.surround {a b s : Text} (hs : Nested s) (ha : Text.Blank a) (hb : Text.Blank b) :
    Nested (a ++ s ++ b) :=
  ((nested_blank ha).append hs).append (nested_blank hb)

theorem Nested.group {s : Text} (hs : Nested s) : Nested ('(' :: s ++ [')']) where
  enclosable := by
    intro p hp
    rcases List.prefix_cons_iff.1 hp with rfl | ⟨q, rfl, hq⟩
    · exact Int.le_refl 0
    · rcases List.prefix_concat_iff.1 hq with rfl | hq
      · exact Int.le_of_eq ((level_group s).trans hs.level_eq).symm
      · have hlevel := hs.enclosable q hq
        rw [level_cons, shift_open]
        omega
  level_eq := (level_group s).trans hs.level_eq

theorem trimmed_group (s : Text) : Text.Trimmed ('(' :: s ++ [')']) where
  first := by
    have hopen : isBlank '(' = false := by decide
    simpa using hopen
  last := by
    have hclose : isBlank ')' = false := by decide
    simpa only [List.getLast?_concat, Option.mem_some_iff, forall_eq'] using hclose

theorem closesAtEnd_iff {l : Int} (hl : 0 < l) {s : Text} :
    closesAtEnd l s = true ↔
      ∃ inner, s = inner ++ [')'] ∧ ∀ x, x <+: inner → 0 < l + level x := by
  induction s generalizing l with
  | nil => simp [closesAtEnd]
  | cons c s ih =>
    cases s with
    | nil =>
      simp only [closesAtEnd, beq_iff_eq]
      constructor
      · rintro rfl
        exact ⟨[], rfl, by simpa using hl⟩
      · rintro ⟨inner, hs, -⟩
        cases inner with
        | nil => exact (List.cons.inj hs).1
        | cons d inner => simp at hs
    | cons next s =>
      simp only [closesAtEnd, Bool.and_eq_true, bne_iff_ne]
      have hshift := neg_one_le_shift c
      constructor
      · rintro ⟨hne, hs⟩
        obtain ⟨inner, hinner, hup⟩ := (ih (by omega)).1 hs
        refine ⟨c :: inner, by rw [hinner, List.cons_append], ?_⟩
        intro x hx
        rcases List.prefix_cons_iff.1 hx with rfl | ⟨y, rfl, hy⟩
        · simpa using hl
        · have hpos := hup y hy
          rw [level_cons]
          omega
      · rintro ⟨inner, hs, hup⟩
        cases inner with
        | nil => simp at hs
        | cons d inner =>
          obtain ⟨rfl, htail⟩ := List.cons.inj hs
          have hc := hup [c] (by simp)
          simp only [level_cons, level_nil, Int.add_zero] at hc
          refine ⟨by omega, (ih hc).2 ⟨inner, htail, ?_⟩⟩
          intro x hx
          have hpos := hup (c :: x) (List.prefix_cons_iff.2 (.inr ⟨x, rfl, hx⟩))
          rw [level_cons] at hpos
          omega

/-- A text loses its two ends exactly if they are parentheses and what stands between them can stand inside such a
pair. -/
theorem inside?_eq_some_iff {s inner : Text} :
    inside? s = some inner ↔ s = '(' :: inner ++ [')'] ∧ Enclosable inner := by
  constructor
  · intro h
    unfold inside? at h
    split at h
    · rename_i rest
      split at h
      · rename_i hclose
        obtain ⟨body, rfl, hup⟩ := (closesAtEnd_iff Int.one_pos).1 hclose
        simp only [List.dropLast_concat, Option.some.injEq] at h
        subst h
        refine ⟨rfl, fun x hx => ?_⟩
        have hpos := hup x hx
        omega
      · cases h
    · cases h
  · rintro ⟨rfl, hup⟩
    have hclose : closesAtEnd 1 (inner ++ [')']) = true := by
      refine (closesAtEnd_iff Int.one_pos).2 ⟨inner, rfl, fun x hx => ?_⟩
      have hpos := hup x hx
      omega
    simp [inside?, hclose]

theorem inside?_eq_none_of_head {s : Text} (h : '(' ∉ s.head?) : inside? s = none := by
  rw [Option.eq_none_iff_forall_ne_some]
  intro inner hinner
  obtain ⟨rfl, -⟩ := inside?_eq_some_iff.1 hinner
  exact h rfl

/-- What is left of a text beside a first part at level zero keeps it from being one group. -/
theorem inside?_append {x y : Text} (hx : x ≠ []) (hy : y ≠ []) (hlevel : level x = 0) :
    inside? (x ++ y) = none := by
  rw [Option.eq_none_iff_forall_ne_some]
  intro inner hinner
  obtain ⟨hs, hup⟩ := inside?_eq_some_iff.1 hinner
  obtain ⟨y, c, rfl⟩ := List.eq_nil_or_concat y |>.resolve_left hy
  cases x with
  | nil => exact hx rfl
  | cons d x =>
    simp only [List.concat_eq_append, List.cons_append, List.cons.injEq, ← List.append_assoc] at hs
    obtain ⟨rfl, hs⟩ := hs
    have hpre : x <+: inner := by
      rw [(List.append_inj' hs rfl).1.symm]
      exact List.prefix_append x y
    have hpos := hup x hpre
    rw [level_cons, shift_open] at hlevel
    omega

@[simp] theorem level_stripOuter (s : Text) : level (stripOuter s) = level s := by
  unfold stripOuter
  cases h : inside? s with
  | none => rfl
  | some inner =>
    obtain ⟨rfl, -⟩ := inside?_eq_some_iff.1 h
    rw [Option.getD_some, level_group]

theorem infix_stripOuter (s : Text) : stripOuter s <:+: s := by
  unfold stripOuter
  cases h : inside? s with
  | none => exact List.infix_rfl
  | some inner =>
    obtain ⟨rfl, -⟩ := inside?_eq_some_iff.1 h
    exact ⟨['('], [')'], rfl⟩

theorem level_inside {s inner : Text} (h : inside? s = some inner) : level inner = level s := by
  have hstrip := level_stripOuter s
  rwa [stripOuter, h] at hstrip

end Nesting

namespace Parse

@[simp] theorem level_bare (s : Text) : Nesting.level (bare s) = Nesting.level s := by
  simp [bare]

theorem trimmed_bare (s : Text) : Text.Trimmed (bare s) := Text.trimmed_trim _

theorem infix_bare (s : Text) : bare s <:+: s :=
  (Text.infix_trim _).trans ((Nesting.infix_stripOuter _).trans (Text.infix_trim s))

theorem length_operands_lt {s x y : Text} {op : Operator} (h : bare s = x ++ op.symbol :: y) :
    x.length < s.length ∧ y.length < s.length := by
  have hlength := congrArg List.length h
  have hshort := length_bare_le s
  rw [List.length_append, List.length_cons] at hlength
  omega

theorem bare_blank_append {a : Text} (ha : Text.Blank a) (s : Text) : bare (a ++ s) = bare s := by
  simp only [bare, Text.trim_blank_append ha]

theorem bare_append_blank {b : Text} (hb : Text.Blank b) (s : Text) : bare (s ++ b) = bare s := by
  simp only [bare, Text.trim_append_blank hb]

theorem bare_of_inside {s inner : Text} (h : Nesting.inside? s.trim = some inner) :
    bare s = inner.trim := by
  rw [bare, Nesting.stripOuter, h, Option.getD_some]

theorem bare_of_not_inside {s : Text} (h : Nesting.inside? s.trim = none) : bare s = s.trim := by
  rw [bare, Nesting.stripOuter, h, Option.getD_none, Text.trim_trim]

theorem bare_group {s : Text} (h : Nesting.Enclosable s) : bare ('(' :: s ++ [')']) = s.trim := by
  refine bare_of_inside ?_
  rw [Text.trim_eq_self (Nesting.trimmed_group s)]
  exact Nesting.inside?_eq_some_iff.2 ⟨rfl, h⟩

end Parse
end ReversePolish
