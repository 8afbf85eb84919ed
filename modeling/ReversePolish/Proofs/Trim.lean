import Mathlib.Data.List.DropRight
import ReversePolish.Text

/-! Trimming takes off exactly the blanks at both ends. What is left neither begins nor ends with a blank,
and a text of that kind is left as it is, whatever blanks are put around it. -/
namespace ReversePolish
namespace Text

def Blank (s : Text) : Prop := ∀ c ∈ s, isBlank c = true

structure Trimmed (s : Text) : Prop where
  first : ∀ c ∈ s.head?, isBlank c = false
  last : ∀ c ∈ s.getLast?, isBlank c = false

@[simp] theorem blank_nil : Blank [] := by simp [Blank]

theorem blank_of_all {s : Text} (h : s.all isBlank = true) : Blank s := List.all_eq_true.1 h

theorem blank_space : Blank [' '] := blank_of_all (by decide)

theorem not_blank_cons {c : Char} (hc : isBlank c = false) (s : Text) : ¬Blank (c :: s) := by
  simp [Blank, hc]

theorem blank_takeWhile (s : Text) : Blank (s.takeWhile isBlank) :=
  fun _ hc => List.mem_takeWhile_imp hc

theorem blank_rtakeWhile (s : Text) : Blank (s.rtakeWhile isBlank) :=
  fun _ hc => List.mem_rtakeWhile_imp hc

theorem takeWhile_append_trimLeft (s : Text) : s.takeWhile isBlank ++ trimLeft s = s :=
  List.takeWhile_append_dropWhile

theorem trimRight_append_rtakeWhile (s : Text) : trimRight s ++ s.rtakeWhile isBlank = s :=
  List.rdropWhile_append_rtakeWhile

theorem trimLeft_eq_self {s : Text} (h : ∀ c ∈ s.head?, isBlank c = false) : trimLeft s = s := by
  cases s with
  | nil => rfl
  | cons c s =>
    have hc : isBlank c = false := h c rfl
    simp [trimLeft, hc]

theorem trimRight_eq_self {s : Text} (h : ∀ c ∈ s.getLast?, isBlank c = false) :
    trimRight s = s := by
  apply List.rdropWhile_eq_self_iff.mpr
  intro hne
  rw [h _ (List.getLast_mem_getLast? hne)]
  exact Bool.false_ne_true

theorem head_trimLeft (s : Text) : ∀ c ∈ (trimLeft s).head?, isBlank c = false := by
  intro c hc
  have hnot := List.head?_dropWhile_not isBlank s
  rw [show (s.dropWhile isBlank).head? = some c from hc] at hnot
  exact hnot

theorem last_trimRight (s : Text) : ∀ c ∈ (trimRight s).getLast?, isBlank c = false := by
  intro c hc
  have hne : trimRight s ≠ [] := by
    intro hnil
    simp [hnil] at hc
  have hlast := List.rdropWhile_last_not isBlank s hne
  rw [List.getLast?_eq_some_getLast hne, Option.mem_some_iff] at hc
  subst hc
  exact Bool.eq_false_iff.mpr hlast

theorem head_of_append {x y : Text} (h : ∀ c ∈ (x ++ y).head?, isBlank c = false) :
    ∀ c ∈ x.head?, isBlank c = false := by
  cases x with
  | nil => simp
  | cons c x => exact h

theorem last_of_append {x y : Text} (h : ∀ c ∈ (x ++ y).getLast?, isBlank c = false) :
    ∀ c ∈ y.getLast?, isBlank c = false := by
  intro c hc
  apply h
  have hne : y ≠ [] := by
    intro hnil
    simp [hnil] at hc
  rwa [Option.mem_def, List.getLast?_append_of_ne_nil _ hne]

theorem trimmed_trim (s : Text) : Trimmed (trim s) where
  first := by
    have h := head_trimLeft s
    rw [← trimRight_append_rtakeWhile (trimLeft s)] at h
    exact head_of_append h
  last := last_trimRight _

theorem trim_eq_self {s : Text} (h : Trimmed s) : trim s = s := by
  rw [trim, trimLeft_eq_self h.first, trimRight_eq_self h.last]

@[simp] theorem trim_trim (s : Text) : trim (trim s) = trim s := trim_eq_self (trimmed_trim s)

theorem trim_eq_trimLeft {s : Text} (h : ∀ c ∈ s.getLast?, isBlank c = false) :
    trim s = trimLeft s := by
  rw [← takeWhile_append_trimLeft s] at h
  exact trimRight_eq_self (last_of_append h)

theorem trimLeft_blank_append {a : Text} (ha : Blank a) (s : Text) :
    trimLeft (a ++ s) = trimLeft s :=
  List.dropWhile_append_of_pos ha

theorem trimRight_append_blank {b : Text} (hb : Blank b) (s : Text) :
    trimRight (s ++ b) = trimRight s := by
  simp only [trimRight, List.reverse_append]
  rw [List.dropWhile_append_of_pos (by simpa [Blank] using hb)]

theorem trimLeft_blank {a : Text} (ha : Blank a) : trimLeft a = [] :=
  List.dropWhile_eq_nil_iff.mpr ha

theorem trimLeft_append {u : Text} (hu : ¬Blank u) (s : Text) : trimLeft (u ++ s) = trimLeft u ++ s := by
  rw [trimLeft, List.dropWhile_append, if_neg, trimLeft]
  rw [List.isEmpty_iff]
  exact fun hnil => hu (List.dropWhile_eq_nil_iff.1 hnil)

theorem trimRight_append {v : Text} (hv : ¬Blank v) (s : Text) :
    trimRight (s ++ v) = s ++ trimRight v := by
  have hreverse : ¬Blank v.reverse := by simpa [Blank] using hv
  have htrim := trimLeft_append hreverse s.reverse
  rw [trimRight, trimRight, List.reverse_append]
  simpa [trimLeft] using congrArg List.reverse htrim

theorem trim_append {u v : Text} (hu : ¬Blank u) (hv : ¬Blank v) (s : Text) :
    trim (u ++ s ++ v) = trimLeft u ++ s ++ trimRight v := by
  rw [trim, List.append_assoc, trimLeft_append hu, ← List.append_assoc, trimRight_append hv]

theorem not_blank_trimLeft {s : Text} (h : ¬Blank s) : ¬Blank (trimLeft s) := by
  intro hblank
  apply h
  rw [← takeWhile_append_trimLeft s]
  exact List.forall_mem_append.2 ⟨blank_takeWhile s, hblank⟩

theorem not_blank_trimRight {s : Text} (h : ¬Blank s) : ¬Blank (trimRight s) := by
  intro hblank
  apply h
  rw [← trimRight_append_rtakeWhile s]
  exact List.forall_mem_append.2 ⟨hblank, blank_rtakeWhile s⟩

@[simp] theorem trim_blank_append {a : Text} (ha : Blank a) (s : Text) : trim (a ++ s) = trim s := by
  rw [trim, trimLeft_blank_append ha, trim]

@[simp] theorem trim_append_blank {b : Text} (hb : Blank b) (s : Text) : trim (s ++ b) = trim s := by
  rw [trim, trim, trimLeft, trimLeft, List.dropWhile_append]
  split
  · rename_i hs
    rw [List.isEmpty_iff.1 hs]
    exact congrArg trimRight (trimLeft_blank hb)
  · exact trimRight_append_blank hb _

theorem trimRight_append_cons {c : Char} (hc : isBlank c = false) (x y : Text) :
    trimRight (x ++ c :: y) = x ++ c :: trimRight y := by
  rw [trimRight, trimRight, List.reverse_append, List.reverse_cons, List.append_assoc,
    List.dropWhile_append]
  split
  · rename_i hblank
    rw [List.isEmpty_iff.1 hblank]
    simp [hc]
  · simp

/-- Of the blanks before a text without a blank at its end some are left, or all. -/
theorem exists_trimRight_blank_append {b s : Text} (hb : Blank b)
    (hs : ∀ c ∈ s.getLast?, isBlank c = false) : ∃ a, Blank a ∧ trimRight (b ++ s) = a ++ s := by
  by_cases hne : s = []
  · subst hne
    refine ⟨[], blank_nil, ?_⟩
    rw [List.append_nil, List.append_nil]
    exact trimRight_append_blank hb []
  · refine ⟨b, hb, trimRight_eq_self ?_⟩
    rwa [List.getLast?_append_of_ne_nil _ hne]

theorem exists_trim (s : Text) : ∃ a b, Blank a ∧ Blank b ∧ s = a ++ trim s ++ b := by
  refine ⟨s.takeWhile isBlank, (trimLeft s).rtakeWhile isBlank, blank_takeWhile s,
    blank_rtakeWhile _, ?_⟩
  rw [List.append_assoc, trim, trimRight_append_rtakeWhile, takeWhile_append_trimLeft]

theorem infix_trim (s : Text) : s.trim <:+: s := by
  obtain ⟨a, b, -, -, hs⟩ := exists_trim s
  exact ⟨a, b, hs.symm⟩

theorem exists_trim_of_head {s : Text} (h : ∀ c ∈ s.head?, isBlank c = false) :
    ∃ b, Blank b ∧ s = trim s ++ b := by
  refine ⟨s.rtakeWhile isBlank, blank_rtakeWhile s, ?_⟩
  rw [trim, trimLeft_eq_self h, trimRight_append_rtakeWhile]

theorem exists_trim_of_last {s : Text} (h : ∀ c ∈ s.getLast?, isBlank c = false) :
    ∃ a, Blank a ∧ s = a ++ trim s := by
  refine ⟨s.takeWhile isBlank, blank_takeWhile s, ?_⟩
  rw [trim_eq_trimLeft h, takeWhile_append_trimLeft]

theorem trim_surrounded {a b s : Text} (ha : Blank a) (hb : Blank b) (hs : Trimmed s) :
    trim (a ++ s ++ b) = s := by
  rw [trim_append_blank hb, trim_blank_append ha, trim_eq_self hs]

theorem Trimmed.surround {x y : Text} (hx : Trimmed x) (hxne : x ≠ []) (hy : Trimmed y)
    (hyne : y ≠ []) (between : Text) : Trimmed (x ++ between ++ y) where
  first := by
    rw [List.append_assoc, List.head?_append_of_ne_nil _ hxne]
    exact hx.first
  last := by
    rw [List.getLast?_append_of_ne_nil _ hyne]
    exact hy.last

end Text
end ReversePolish
