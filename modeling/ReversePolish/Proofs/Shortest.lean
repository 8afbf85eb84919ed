import ReversePolish.Proofs.Rounding
import ReversePolish.Binary64.Decimal

/-! The search for the shortest decimal. Wherever it ends, the decimal reads back as the number. A whole number is on
the grid of the integers, so the search ends there or before; and a decimal without places reads back as nothing but
a whole number. -/
namespace ReversePolish.Binary64

section Search

variable {num den digits : Nat} {serves : Nat → Bool}

theorem serves_of_better? (h : better? num den serves = some digits) : serves digits = true := by
  unfold better? at h
  dsimp only at h
  split at h
  · rename_i hlow hhigh
    rw [← Option.some.inj h]
    split
    · exact hlow
    · exact hhigh
  · rename_i hlow _
    rw [← Option.some.inj h]
    exact hlow
  · rename_i _ hhigh
    rw [← Option.some.inj h]
    exact hhigh
  · cases h

theorem better?_ne_none (h : serves (num / den) = true) : better? num den serves ≠ none := by
  unfold better?
  dsimp only
  rw [h]
  cases serves (num / den + 1)
  · exact Option.some_ne_none _
  · exact Option.some_ne_none _

theorem coarsest_cases (grid : Int → Option Nat) (finest n : Nat) :
    (∃ digits exponent, grid exponent = some digits ∧ coarsest grid finest n = (digits, exponent)) ∨
      coarsest grid finest n = (finest, -1074) := by
  induction n with
  | zero => exact .inr rfl
  | succ n ih =>
    rw [coarsest]
    cases hgrid : grid (n - 1074) with
    | some digits => exact .inl ⟨digits, _, hgrid, rfl⟩
    | none => exact ih

theorem le_exponent_coarsest {grid : Int → Option Nat} {finest k n : Nat} (hk : grid (k - 1074) ≠ none)
    (hn : k + 1 ≤ n) : (k : Int) - 1074 ≤ (coarsest grid finest n).2 := by
  induction n, hn using Nat.le_induction with
  | base =>
    rw [coarsest]
    split
    · exact le_rfl
    · rename_i hgrid
      exact absurd hgrid hk
  | succ n hn ih =>
    rw [coarsest]
    split
    · show (k : Int) - 1074 ≤ n - 1074
      omega
    · exact ih

end Search

section Shortest

variable {bits : Nat}

theorem readsBack_iff {digits : Nat} {exponent : Int} :
    readsBack bits digits exponent = true ↔
      nearest (digits * 10 ^ exponent.toNat) (10 ^ (-exponent).toNat) = bits := beq_iff_eq

theorem readsBack_integer_iff {digits : Nat} {exponent : Int} (h : 0 ≤ exponent) :
    readsBack bits digits exponent = true ↔ nearest (digits * 10 ^ exponent.toNat) 1 = bits := by
  rw [readsBack_iff, Int.toNat_of_nonpos (Int.neg_nonpos_of_nonneg h), pow_zero]

theorem readsBack_finest (h : bits ≤ infinity) : readsBack bits (units bits * Nat.pow 5 1074) (-1074) = true := by
  obtain ⟨places, hplaces, hunity⟩ : ∃ places, places = 1074 ∧ unity = 2 ^ places := ⟨1074, rfl, rfl⟩
  have hexponent : (-(-1074 : Int)).toNat = places := hplaces.symm
  have hwhole : (-1074 : Int).toNat = 0 := rfl
  have hten : (10 : Nat) ^ places = Nat.pow 5 places * 2 ^ places := by
    rw [show (10 : Nat) = 5 * 2 from rfl, mul_pow]
    rfl
  rw [readsBack_iff, hexponent, hwhole, ← hplaces, pow_zero, mul_one]
  have hunits : units bits * 10 ^ places = units bits * Nat.pow 5 places * unity := by
    rw [hten, hunity, mul_assoc]
  rw [nearest_of_units (pow_pos (by decide) places) hunits, min_eq_right h]

theorem readsBack_shortest (h : bits ≤ infinity) : readsBack bits (shortest bits).1 (shortest bits).2 = true := by
  rw [shortest]
  rcases coarsest_cases (onGrid? bits) _ _ with ⟨digits, exponent, hgrid, heq⟩ | heq
  · rw [heq]
    rw [onGrid?] at hgrid
    have hserves := serves_of_better? hgrid
    exact hserves
  · rw [heq]
    exact readsBack_finest h

theorem onGrid?_integer_ne_none (h : bits ≤ infinity) (hwhole : unity ∣ units bits) : onGrid? bits 0 ≠ none := by
  obtain ⟨n, hn⟩ := hwhole
  have hnum : Nat.pow 10 (-(0 : Int)).toNat = 1 := rfl
  have hden : Nat.pow 10 (0 : Int).toNat = 1 := rfl
  have hnearest : nearest n 1 = bits := by
    rw [nearest_of_units one_pos (by rw [mul_one, hn, mul_comm]), min_eq_right h]
  rw [onGrid?, hnum, hden, shiftLeft_eq_mul_pow, ← unity, mul_one, one_mul]
  refine better?_ne_none ?_
  rw [hn, Nat.mul_div_cancel_left n unity_pos, readsBack_integer_iff le_rfl, Int.toNat_zero, pow_zero, mul_one,
    hnearest]

theorem le_log2_of_unity_dvd {num : Nat} (h : unity ∣ num) (hne : num ≠ 0) : 1074 ≤ num.log2 := by
  have hlog : ∀ k, unity = 2 ^ k → k ≤ num.log2 := fun k hk =>
    (Nat.le_log2 hne).2 (hk ▸ Nat.le_of_dvd (Nat.pos_of_ne_zero hne) h)
  exact hlog 1074 rfl

theorem exponent_shortest_nonneg_iff (hlt : bits < infinity) (hne : bits ≠ 0) :
    0 ≤ (shortest bits).2 ↔ unity ∣ units bits := by
  constructor
  · intro hexponent
    have hreads := (readsBack_integer_iff hexponent).1 (readsBack_shortest hlt.le)
    have hdvd := unity_dvd_units_nearest (hreads.symm ▸ hlt)
    rwa [hreads] at hdvd
  · intro hdvd
    have hstart : 1074 + 1 ≤ (units bits).log2 * 30103 / 100000 + 753 := by
      have hlog := le_log2_of_unity_dvd hdvd (mt eq_zero_of_units hne)
      omega
    exact le_exponent_coarsest (k := 1074) (onGrid?_integer_ne_none hlt.le hdvd) hstart

end Shortest

end ReversePolish.Binary64
