import ReversePolish.Parse.Recursive
import ReversePolish.Proofs.Level

/-! Where a text shows an operator outside its parentheses. The first split point after a position is the
loosest operator shown behind it, and the leftmost of its kind; a front at level zero moves it and changes
nothing else. -/
namespace ReversePolish
namespace Nesting

theorem exposes_iff {s : Text} {op : Operator} {position : Nat} :
    exposes s op position = true ↔
      s[position]? = some op.symbol ∧ level (s.take position) ≤ 0 := by
  simp only [exposes, level, Bool.and_eq_true, beq_iff_eq, decide_eq_true_eq]
  refine and_congr_right fun _ => ?_
  omega

theorem exists_of_exposes {s : Text} {op : Operator} {position : Nat}
    (h : exposes s op position = true) :
    s = s.take position ++ op.symbol :: s.drop (position + 1) ∧ position < s.length ∧
      level (s.take position) ≤ 0 := by
  obtain ⟨hget, hlevel⟩ := exposes_iff.1 h
  obtain ⟨hlt, hget⟩ := List.getElem?_eq_some_iff.1 hget
  refine ⟨?_, hlt, hlevel⟩
  rw [← hget, List.cons_getElem_drop_succ, List.take_append_drop]

theorem exposes_cons_symbol {x y : Text} {op : Operator} (hx : level x ≤ 0) :
    exposes (x ++ op.symbol :: y) op x.length = true := by
  simpa [exposes_iff] using hx

theorem exposes_append_left {x y : Text} {op : Operator} {position : Nat}
    (h : position < x.length) : exposes (x ++ y) op position = exposes x op position := by
  rw [exposes, exposes, List.getElem?_append_left h, List.take_append_of_le_length h.le]

theorem exposes_append_right {x y : Text} (hx : level x = 0) (op : Operator) (position : Nat) :
    exposes (x ++ y) op (x.length + position) = exposes y op position := by
  rw [Bool.eq_iff_iff, exposes_iff, exposes_iff, List.getElem?_append_right (Nat.le_add_right _ _),
    List.take_length_add_append, level_append, hx, Nat.add_sub_cancel_left, Int.zero_add]

/-- An operator exposed in two texts put together is exposed in one of them, if the first is level. -/
theorem exposes_append_cases {x y : Text} {op : Operator} {position : Nat} (hx : level x = 0)
    (h : exposes (x ++ y) op position = true) :
    exposes x op position = true ∨ ∃ i, position = x.length + i ∧ exposes y op i = true := by
  by_cases hlt : position < x.length
  · exact .inl (by rwa [exposes_append_left hlt] at h)
  · obtain ⟨i, rfl⟩ := Nat.exists_eq_add_of_le (Nat.le_of_not_lt hlt)
    exact .inr ⟨i, rfl, by rwa [exposes_append_right hx] at h⟩

theorem exists_exposes_of_trim {s : Text} {op : Operator} {i : Nat}
    (h : exposes s.trim op i = true) : ∃ j, i ≤ j ∧ exposes s op j = true := by
  obtain ⟨a, b, ha, hb, hs⟩ := Text.exists_trim s
  have hlt := (exists_of_exposes h).2.1
  refine ⟨a.length + i, Nat.le_add_left i _, ?_⟩
  rw [hs, List.append_assoc, exposes_append_right (level_blank ha), exposes_append_left hlt]
  exact h

theorem exposes_of_notMem {s : Text} {op : Operator} (h : op.symbol ∉ s) (position : Nat) :
    exposes s op position = false := by
  rw [Bool.eq_false_iff, ne_eq, exposes_iff]
  rintro ⟨hget, -⟩
  exact h (List.mem_of_getElem? hget)

theorem exposes_of_notMem_tail {s : Text} {op : Operator} (h : op.symbol ∉ s.tail) {position : Nat}
    (hposition : 0 < position) : exposes s op position = false := by
  rw [Bool.eq_false_iff, ne_eq, exposes_iff]
  rintro ⟨hget, -⟩
  obtain ⟨i, rfl⟩ := Nat.exists_eq_add_of_lt hposition
  rw [Nat.zero_add, ← List.getElem?_tail] at hget
  exact h (List.mem_of_getElem? hget)

theorem exposes_blank {a : Text} (ha : Text.Blank a) (op : Operator) (position : Nat) :
    exposes a op position = false :=
  exposes_of_notMem (op.symbol_notMem_of_blank ha) position

theorem exposes_group {inner : Text} (hinner : Enclosable inner) (op : Operator) {position : Nat}
    (hposition : 0 < position) : exposes ('(' :: inner ++ [')']) op position = false := by
  rw [Bool.eq_false_iff]
  intro h
  obtain ⟨-, hlt, hlevel⟩ := exists_of_exposes h
  obtain ⟨i, rfl⟩ := Nat.exists_eq_add_of_lt hposition
  have hpre : inner.take i <+: inner := List.take_prefix i inner
  have hpos := hinner _ hpre
  simp only [List.cons_append, List.length_cons, List.length_append, List.length_nil] at hlt
  rw [Nat.zero_add, List.cons_append, List.take_succ_cons,
    List.take_append_of_le_length (by omega), level_cons, shift_open] at hlevel
  omega

/-- A hit comes before another if its operator is looser, or the same and further left. -/
def Precedes (hit other : Nat × Operator) : Prop :=
  hit.2.rank < other.2.rank ∨ hit.2 = other.2 ∧ hit.1 ≤ other.1

theorem precedes_of_rank_le {i j : Nat} {f g : Operator} (hrank : f.rank ≤ g.rank) (hle : i ≤ j) :
    Precedes (i, f) (j, g) := by
  rcases Nat.lt_or_eq_of_le hrank with hlt | heq
  · exact .inl hlt
  · exact .inr ⟨Operator.rank_injective heq, hle⟩

theorem Precedes.rank_le {hit other : Nat × Operator} (h : Precedes hit other) :
    hit.2.rank ≤ other.2.rank := by
  rcases h with h | ⟨hop, -⟩
  · exact h.le
  · rw [hop]

theorem Precedes.antisymm {hit other : Nat × Operator} (h : Precedes hit other)
    (h' : Precedes other hit) : hit = other := by
  rcases h with h | ⟨hop, hle⟩
  · rcases h' with h' | ⟨hop', -⟩
    · omega
    · rw [hop'] at h
      omega
  · rcases h' with h' | ⟨-, hle'⟩
    · rw [hop] at h'
      omega
    · exact Prod.ext (Nat.le_antisymm hle hle') hop

theorem firstAfter?_eq_none_iff {lead : Nat} {s : Text} :
    firstAfter? lead s = none ↔
      ∀ position op, lead < position → exposes s op position = false := by
  simp only [firstAfter?, List.findSome?_eq_none_iff, Option.map_eq_none_iff, List.find?_eq_none,
    List.mem_range, Bool.and_eq_true, decide_eq_true_eq, not_and, Bool.not_eq_true]
  constructor
  · intro h position op hlead
    by_cases hlt : position < s.length
    · exact h op (Operator.mem_splitOrder op) position hlt hlead
    · rw [Bool.eq_false_iff, ne_eq, exposes_iff, List.getElem?_eq_none (Nat.le_of_not_lt hlt)]
      simp
  · exact fun h op _ position _ hlead => h position op hlead

theorem firstAfter?_spec {lead position : Nat} {op : Operator} {s : Text}
    (h : firstAfter? lead s = some (position, op)) :
    lead < position ∧ exposes s op position = true ∧
      ∀ j other, lead < j → exposes s other j = true → Precedes (position, op) (j, other) := by
  obtain ⟨looser, f, tighter, horder, hfind, hnone⟩ := List.findSome?_eq_some_iff.1 h
  obtain ⟨found, hfound, heq⟩ := Option.map_eq_some_iff.1 hfind
  cases heq
  have hsat := List.find?_some hfound
  simp only [Bool.and_eq_true, decide_eq_true_eq] at hsat
  refine ⟨hsat.1, hsat.2, fun j other hlead hother => ?_⟩
  have hlt := (exists_of_exposes hother).2.1
  have hmem := Operator.mem_splitOrder other
  have hsorted := Operator.rank_splitOrder
  rw [horder] at hmem hsorted
  rcases List.mem_append.1 hmem with hloose | hmem
  · -- a looser operator would have been found first
    have hnot := hnone other hloose
    simp only [Option.map_eq_none_iff, List.find?_eq_none, List.mem_range, Bool.and_eq_true,
      decide_eq_true_eq, not_and] at hnot
    exact absurd hother (hnot j hlt hlead)
  rcases List.mem_cons.1 hmem with rfl | htight
  · obtain ⟨-, -, hfirst⟩ := List.find?_range_eq_some.1 hfound
    refine .inr ⟨rfl, Nat.le_of_not_lt fun hj => ?_⟩
    have hnot := hfirst j hj
    simp [hlead, hother] at hnot
  · exact .inl ((List.pairwise_cons.1 (List.pairwise_append.1 hsorted).2.1).1 other htight)

/-- An operator of a text that has no split point stands at its beginning or inside parentheses. -/
theorem level_pos_of_firstAfter?_eq_none {x y : Text} {op : Operator}
    (h : firstAfter? 0 (x ++ op.symbol :: y) = none) (hx : x ≠ []) : 0 < level x := by
  by_contra hlevel
  have hexp : exposes (x ++ op.symbol :: y) op x.length = true :=
    exposes_cons_symbol (Int.not_lt.1 hlevel)
  rw [firstAfter?_eq_none_iff.1 h _ op (List.length_pos_iff.2 hx)] at hexp
  cases hexp

theorem exists_of_firstAfter? {lead position : Nat} {op : Operator} {s : Text}
    (h : firstAfter? lead s = some (position, op)) :
    ∃ x y, s = x ++ op.symbol :: y ∧ position = x.length ∧ level x ≤ 0 := by
  obtain ⟨hsplit, hlt, hlevel⟩ := exists_of_exposes (firstAfter?_spec h).2.1
  exact ⟨_, _, hsplit, (List.length_take_of_le hlt.le).symm, hlevel⟩

theorem firstAfter?_eq_some {lead position : Nat} {op : Operator} {s : Text}
    (hlead : lead < position) (hexp : exposes s op position = true)
    (hfirst : ∀ j other, lead < j → exposes s other j = true → Precedes (position, op) (j, other)) :
    firstAfter? lead s = some (position, op) := by
  cases h : firstAfter? lead s with
  | none =>
    rw [firstAfter?_eq_none_iff.1 h position op hlead] at hexp
    cases hexp
  | some hit =>
    obtain ⟨hlead', hexp', hfirst'⟩ := firstAfter?_spec h
    exact congrArg some ((hfirst' position op hlead hexp).antisymm (hfirst _ _ hlead' hexp'))

theorem firstAfter?_append {x : Text} (hx : level x = 0) (lead : Nat) (y : Text) :
    firstAfter? (x.length + lead) (x ++ y) =
      (firstAfter? lead y).map fun hit => (x.length + hit.1, hit.2) := by
  cases h : firstAfter? lead y with
  | none =>
    refine firstAfter?_eq_none_iff.2 fun position op hlead => ?_
    obtain ⟨j, rfl⟩ := Nat.exists_eq_add_of_le (show x.length ≤ position by omega)
    rw [exposes_append_right hx]
    exact firstAfter?_eq_none_iff.1 h j op (by omega)
  | some hit =>
    obtain ⟨hlead, hexp, hfirst⟩ := firstAfter?_spec h
    refine firstAfter?_eq_some (by omega) (by rwa [exposes_append_right hx]) ?_
    intro position other hafter hother
    obtain ⟨j, rfl⟩ := Nat.exists_eq_add_of_le (show x.length ≤ position by omega)
    rw [exposes_append_right hx] at hother
    have hprec := hfirst j other (by omega) hother
    exact hprec.imp_right fun ⟨hop, hle⟩ => ⟨hop, Nat.add_le_add_left hle _⟩

theorem exposes_behind {x : Text} (hx : level x = 0) (op f : Operator) (y : Text) (i : Nat) :
    exposes (x ++ op.symbol :: y) f (x.length + 1 + i) = exposes y f i := by
  have hlevel : level (x ++ [op.symbol]) = 0 := by simp [hx]
  rw [List.append_cons, ← exposes_append_right hlevel f i, List.length_append, List.length_singleton]

section Split

variable {x y : Text} {op f : Operator} {i : Nat}

theorem level_left_le (hpoint : firstAfter? 0 (x ++ op.symbol :: y) = some (x.length, op)) :
    level x ≤ 0 := by
  have hlevel := (exposes_iff.1 (firstAfter?_spec hpoint).2.1).2
  rwa [List.take_left] at hlevel

/-- Behind its beginning the left operand of a split shows only tighter operators. -/
theorem rank_lt_of_exposes_left (hpoint : firstAfter? 0 (x ++ op.symbol :: y) = some (x.length, op))
    (hi : 0 < i) (h : exposes x f i = true) : op.rank < f.rank := by
  have hlt := (exists_of_exposes h).2.1
  have hwhole : exposes (x ++ op.symbol :: y) f i = true := by
    rwa [exposes_append_left hlt]
  rcases (firstAfter?_spec hpoint).2.2 i f hi hwhole with hrank | ⟨-, hle⟩
  · exact hrank
  · exact absurd hlt (Nat.not_lt_of_le hle)

/-- The right operand of a split shows no looser operator, not even as a sign. -/
theorem rank_le_of_exposes_right (hpoint : firstAfter? 0 (x ++ op.symbol :: y) = some (x.length, op))
    (hx : level x = 0) (h : exposes y f i = true) : op.rank ≤ f.rank := by
  rw [← exposes_behind hx op] at h
  exact ((firstAfter?_spec hpoint).2.2 _ f (by omega) h).rank_le

theorem firstAfter?_split_iff (hx : level x = 0) :
    firstAfter? 0 (x ++ op.symbol :: y) = some (x.length, op) ↔
      x ≠ [] ∧ (∀ f i, 0 < i → exposes x f i = true → op.rank < f.rank) ∧
        ∀ f i, exposes y f i = true → op.rank ≤ f.rank := by
  constructor
  · intro hpoint
    refine ⟨List.length_pos_iff.1 (firstAfter?_spec hpoint).1, ?_, ?_⟩
    · exact fun f i hi h => rank_lt_of_exposes_left hpoint hi h
    · exact fun f i h => rank_le_of_exposes_right hpoint hx h
  · rintro ⟨hne, hleft, hright⟩
    refine firstAfter?_eq_some (List.length_pos_iff.2 hne) (exposes_cons_symbol (Int.le_of_eq hx)) ?_
    intro j other hj hother
    by_cases hlt : j < x.length
    · rw [exposes_append_left hlt] at hother
      exact .inl (hleft other j hj hother)
    · refine precedes_of_rank_le ?_ (Nat.le_of_not_lt hlt)
      by_cases heq : j = x.length
      · subst heq
        obtain ⟨hget, -⟩ := exposes_iff.1 hother
        simp only [List.getElem?_append_right (Nat.le_refl _), Nat.sub_self, List.getElem?_cons_zero,
          Option.some.injEq, Operator.symbol_inj] at hget
        rw [hget]
      · obtain ⟨i, rfl⟩ := Nat.exists_eq_add_of_lt (Nat.lt_of_le_of_ne (Nat.le_of_not_lt hlt) (Ne.symm heq))
        rw [show x.length + i + 1 = x.length + 1 + i by omega, exposes_behind hx] at hother
        exact hright other i hother

end Split

end Nesting
end ReversePolish
