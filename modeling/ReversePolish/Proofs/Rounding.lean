import Mathlib.Algebra.Order.Ring.Nat
import Mathlib.Data.Nat.Dist
import Mathlib.Order.Monotone.Basic
import Mathlib.Tactic.Ring
import ReversePolish.Binary64

/-! Rounding to the nearest number of the format. The numbers are the natural numbers of units that their bits stand
for, in the order of the bits; the exponents go on without end here, and what is too large is cut off last. At the
scale of a quotient the numbers are the multiples of one power of two, and all others are further below. -/
namespace ReversePolish.Binary64

theorem nearestQuotient_cases (num den : Nat) :
    (nearestQuotient num den = num / den ∧ 2 * (num % den) ≤ den) ∨
      (nearestQuotient num den = num / den + 1 ∧ den ≤ 2 * (num % den)) := by
  unfold nearestQuotient
  dsimp only
  split
  · exact .inl ⟨rfl, by omega⟩
  · exact .inr ⟨rfl, by omega⟩

theorem nearestQuotient_of_dvd {num den : Nat} (hden : 0 < den) (h : den ∣ num) :
    nearestQuotient num den * den = num := by
  have hmod := Nat.mod_eq_zero_of_dvd h
  rcases nearestQuotient_cases num den with ⟨heq, -⟩ | ⟨-, hle⟩
  · rw [heq, Nat.div_mul_cancel h]
  · omega

theorem dist_nearestQuotient_le {den : Nat} (hden : 0 < den) (num k : Nat) :
    Nat.dist (nearestQuotient num den * den) num ≤ Nat.dist (k * den) num := by
  have hdiv := Nat.div_add_mod' num den
  have hmod := Nat.mod_lt num hden
  have hside : k * den ≤ num / den * den ∨ num / den * den + den ≤ k * den := by
    rcases Nat.lt_or_ge (num / den) k with hlt | hge
    · exact .inr (Nat.succ_mul _ den ▸ Nat.mul_le_mul_right den hlt)
    · exact .inl (Nat.mul_le_mul_right den hge)
  unfold Nat.dist
  rcases nearestQuotient_cases num den with ⟨heq, hrest⟩ | ⟨heq, hrest⟩
  · rw [heq]
    omega
  · rw [heq, Nat.succ_mul]
    omega

theorem nearestQuotient_even {num den k : Nat} (hden : 0 < den) (hne : k ≠ nearestQuotient num den)
    (h : Nat.dist (nearestQuotient num den * den) num = Nat.dist (k * den) num) :
    nearestQuotient num den % 2 = 0 := by
  have hdiv := Nat.div_add_mod' num den
  have hmod := Nat.mod_lt num hden
  have hside : k * den + den ≤ num / den * den ∨ k = num / den ∨ k = num / den + 1 ∨
      num / den * den + 2 * den ≤ k * den := by
    rcases Nat.lt_trichotomy k (num / den) with hlt | heq | hgt
    · exact .inl (Nat.succ_mul k den ▸ Nat.mul_le_mul_right den hlt)
    · exact .inr (.inl heq)
    · rcases Nat.eq_or_lt_of_le hgt with heq | hgt
      · exact .inr (.inr (.inl heq.symm))
      · exact .inr (.inr (.inr (by rw [← Nat.add_mul]; exact Nat.mul_le_mul_right den hgt)))
  have hsucc : (num / den + 1) * den = num / den * den + den := Nat.succ_mul _ den
  unfold nearestQuotient at hne h ⊢
  unfold Nat.dist at h
  dsimp only at hne h ⊢
  split at hne
  · rename_i hlow
    rw [if_pos hlow] at h ⊢
    rcases hside with hk | rfl | rfl | hk <;> omega
  · rename_i hhigh
    rw [if_neg hhigh] at h ⊢
    rcases hside with hk | rfl | rfl | hk <;> omega

/-- The units of a significand at a scale. A significand that has grown by a place carries into the exponent. -/
theorem units_add {shift significand : Nat} (hnormal : shift = 0 ∨ hiddenBit ≤ significand)
    (hle : significand ≤ 2 * hiddenBit) :
    units (shift * hiddenBit + significand) = significand * 2 ^ shift := by
  have hpos : 0 < hiddenBit := by decide
  unfold units
  dsimp only
  rcases Nat.lt_or_ge significand hiddenBit with hsubnormal | hnormal'
  · obtain rfl : shift = 0 := by omega
    rw [Nat.zero_mul, Nat.zero_add, Nat.div_eq_of_lt hsubnormal, Nat.mod_eq_of_lt hsubnormal, if_pos rfl,
      Nat.pow_zero, Nat.mul_one]
  obtain ⟨fraction, rfl⟩ := Nat.exists_eq_add_of_le hnormal'
  have hsum : shift * hiddenBit + (hiddenBit + fraction) = fraction + hiddenBit * (shift + 1) := by ring
  rw [hsum, Nat.add_mul_div_left _ _ hpos, Nat.add_mul_mod_self_left]
  rcases Nat.eq_or_lt_of_le (Nat.le_of_add_le_add_left (Nat.two_mul hiddenBit ▸ hle)) with heq | hlt
  · rw [heq, Nat.div_self hpos, Nat.mod_self, if_neg (by omega), Nat.shiftLeft_eq, Nat.add_zero,
      show 1 + (shift + 1) - 1 = shift + 1 by omega, Nat.pow_succ]
    ring
  · rw [Nat.div_eq_of_lt hlt, Nat.mod_eq_of_lt hlt, if_neg (by omega), Nat.shiftLeft_eq,
      show 0 + (shift + 1) - 1 = shift by omega]

theorem exists_significand (bits : Nat) :
    ∃ shift significand, bits = shift * hiddenBit + significand ∧
      (shift = 0 ∨ hiddenBit ≤ significand) ∧ significand < 2 * hiddenBit := by
  have hpos : 0 < hiddenBit := by decide
  have hmod := Nat.mod_lt bits hpos
  have hdiv := Nat.div_add_mod' bits hiddenBit
  rcases hexponent : bits / hiddenBit with _ | shift
  · rw [hexponent, Nat.zero_mul, Nat.zero_add] at hdiv
    exact ⟨0, bits, by omega, .inl rfl, by omega⟩
  · rw [hexponent, Nat.succ_mul] at hdiv
    exact ⟨shift, hiddenBit + bits % hiddenBit, by omega, .inr (Nat.le_add_right _ _), by omega⟩

theorem units_strictMono : StrictMono units := by
  refine strictMono_nat_of_lt_succ fun bits => ?_
  obtain ⟨shift, significand, rfl, hnormal, hlt⟩ := exists_significand bits
  rw [Nat.add_assoc, units_add hnormal hlt.le, units_add (hnormal.imp_right Nat.le_succ_of_le) hlt]
  exact Nat.mul_lt_mul_of_pos_right (Nat.lt_succ_self _) (Nat.two_pow_pos _)

theorem units_zero : units 0 = 0 := rfl

theorem eq_zero_of_units {bits : Nat} (h : units bits = 0) : bits = 0 :=
  units_strictMono.injective (h.trans units_zero.symm)

/-- At every scale a number of the format is a multiple of the unit of the scale, or below all that have their leading
bit there. -/
theorem units_grid (bits shift : Nat) :
    (∃ k, units bits = k * 2 ^ shift) ∨ 0 < shift ∧ units bits < hiddenBit * 2 ^ shift := by
  obtain ⟨own, significand, rfl, hnormal, hlt⟩ := exists_significand bits
  rw [units_add hnormal hlt.le]
  rcases Nat.lt_or_ge own shift with hless | hge
  · refine .inr ⟨Nat.zero_lt_of_lt hless,
      lt_of_lt_of_le (Nat.mul_lt_mul_of_pos_right hlt (Nat.two_pow_pos own)) ?_⟩
    calc 2 * hiddenBit * 2 ^ own = hiddenBit * 2 ^ (own + 1) := by ring
      _ ≤ hiddenBit * 2 ^ shift := Nat.mul_le_mul_left _ (Nat.pow_le_pow_right two_pos hless)
  · refine .inl ⟨significand * 2 ^ (own - shift), ?_⟩
    rw [Nat.mul_assoc, ← Nat.pow_add, Nat.sub_add_cancel hge]

def unity : Nat := 2 ^ 1074

theorem unity_pos : 0 < unity := pow_pos two_pos 1074

theorem shiftLeft_eq_mul_pow (num shift : Nat) : num <<< shift = num * 2 ^ shift := Nat.shiftLeft_eq num shift

theorem two_pow_dvd_unity {shift : Nat} (h : shift ≤ 1074) : 2 ^ shift ∣ unity := pow_dvd_pow 2 h

theorem unity_dvd_two_pow {shift : Nat} (h : 1074 ≤ shift) : unity ∣ 2 ^ shift := pow_dvd_pow 2 h

/-- No number of the format is nearer to a quotient than the one with these bits, and if another one is equally near,
then these bits are even. -/
def IsNearest (num den bits : Nat) : Prop :=
  ∀ other, Nat.dist (units bits * den) (num * unity) ≤ Nat.dist (units other * den) (num * unity) ∧
    (other ≠ bits → Nat.dist (units bits * den) (num * unity) = Nat.dist (units other * den) (num * unity) →
      bits % 2 = 0)

theorem significand_bounds (num den : Nat) :
    ((num / den).log2 - 52 = 0 ∨ hiddenBit ≤ num / (den * 2 ^ ((num / den).log2 - 52))) ∧
      num / (den * 2 ^ ((num / den).log2 - 52)) < 2 * hiddenBit := by
  have hbit : hiddenBit = 2 ^ 52 := by decide
  have hlog := Nat.lt_log2_self (n := num / den)
  rw [← Nat.div_div_eq_div_mul, hbit]
  constructor
  · rcases Nat.eq_zero_or_pos ((num / den).log2 - 52) with hzero | hpos
    · exact .inl hzero
    · refine .inr ((Nat.le_div_iff_mul_le (Nat.two_pow_pos _)).2 ?_)
      rw [← Nat.pow_add, Nat.add_sub_cancel' (by omega)]
      exact Nat.log2_self_le fun hzero => by simp [hzero] at hpos
  · rw [Nat.div_lt_iff_lt_mul (Nat.two_pow_pos _), ← Nat.pow_succ', ← Nat.pow_add]
    exact hlog.trans_le (Nat.pow_le_pow_right two_pos (by omega))

theorem isNearest_of_significand {num den shift significand : Nat} (hden : 0 < den)
    (hrounded : significand = nearestQuotient (num * unity) (den * 2 ^ shift))
    (hunits : units (shift * hiddenBit + significand) = significand * 2 ^ shift)
    (hnormal : shift = 0 ∨ hiddenBit ≤ num * unity / (den * 2 ^ shift)) :
    IsNearest num den (shift * hiddenBit + significand) := by
  intro other
  have hunit : 0 < den * 2 ^ shift := Nat.mul_pos hden (Nat.two_pow_pos _)
  have hown : units (shift * hiddenBit + significand) * den =
      nearestQuotient (num * unity) (den * 2 ^ shift) * (den * 2 ^ shift) := by
    rw [hunits, ← hrounded]
    ring
  rw [hown]
  rcases units_grid other shift with ⟨k, hk⟩ | ⟨hpos, hbelow⟩
  · have hother : units other * den = k * (den * 2 ^ shift) := by
      rw [hk]
      ring
    rw [hother]
    refine ⟨dist_nearestQuotient_le hunit _ k, fun hne htie => ?_⟩
    have hk' : k ≠ nearestQuotient (num * unity) (den * 2 ^ shift) := by
      rintro rfl
      exact hne (units_strictMono.injective (by rw [hk, hunits, hrounded]))
    have heven := nearestQuotient_even hunit hk' htie
    have hbit : hiddenBit % 2 = 0 := by decide
    rw [← hrounded] at heven
    rw [Nat.add_mod, Nat.mul_mod, hbit, heven]
    rfl
  · -- the power of two below the quotient is nearer than all that is below it
    have hleading := (Nat.le_div_iff_mul_le hunit).1 (hnormal.resolve_left hpos.ne')
    have hless : units other * den < hiddenBit * (den * 2 ^ shift) := by
      calc units other * den < hiddenBit * 2 ^ shift * den := Nat.mul_lt_mul_of_pos_right hbelow hden
        _ = hiddenBit * (den * 2 ^ shift) := by ring
    have hnearest := dist_nearestQuotient_le hunit (num * unity) hiddenBit
    unfold Nat.dist at hnearest ⊢
    constructor
    · omega
    · omega

/-- Rounding finds the nearest number, where all that is too large is infinity. -/
theorem exists_nearest (num : Nat) {den : Nat} (hden : 0 < den) :
    ∃ shift significand, nearest num den = min infinity (shift * hiddenBit + significand) ∧
      significand = nearestQuotient (num * unity) (den * 2 ^ shift) ∧
      units (shift * hiddenBit + significand) = significand * 2 ^ shift ∧
      IsNearest num den (shift * hiddenBit + significand) := by
  obtain ⟨hnormal, hlt⟩ := significand_bounds (num * unity) den
  have hcases := nearestQuotient_cases (num * unity) (den * 2 ^ ((num * unity / den).log2 - 52))
  have hnearest : nearest num den = min infinity (((num * unity / den).log2 - 52) * hiddenBit +
      nearestQuotient (num * unity) (den * 2 ^ ((num * unity / den).log2 - 52))) := by
    unfold nearest
    dsimp only
    rw [shiftLeft_eq_mul_pow, shiftLeft_eq_mul_pow, unity]
  generalize (num * unity / den).log2 - 52 = shift at *
  have hunits : units (shift * hiddenBit + nearestQuotient (num * unity) (den * 2 ^ shift)) =
      nearestQuotient (num * unity) (den * 2 ^ shift) * 2 ^ shift := units_add (by omega) (by omega)
  exact ⟨shift, _, hnearest, rfl, hunits, isNearest_of_significand hden rfl hunits hnormal⟩

theorem exists_nearest_of_lt {num den : Nat} (hden : 0 < den) (h : nearest num den < infinity) :
    ∃ shift significand, nearest num den = shift * hiddenBit + significand ∧
      significand = nearestQuotient (num * unity) (den * 2 ^ shift) ∧
      units (nearest num den) = significand * 2 ^ shift ∧ IsNearest num den (nearest num den) := by
  obtain ⟨shift, significand, hnearest, hrounded, hunits, hisNearest⟩ := exists_nearest num hden
  have hfinite : nearest num den = shift * hiddenBit + significand := by
    rcases min_choice infinity (shift * hiddenBit + significand) with heq | heq
    · exact absurd (hnearest.trans heq) h.ne
    · exact hnearest.trans heq
  rw [hfinite]
  exact ⟨shift, significand, rfl, hrounded, hunits, hisNearest⟩

theorem nearest_le_infinity (num den : Nat) : nearest num den ≤ infinity := min_le_left _ _

theorem nearest_of_units {num den bits : Nat} (hden : 0 < den) (h : units bits * den = num * unity) :
    nearest num den = min infinity bits := by
  obtain ⟨shift, significand, hnearest, -, -, hisNearest⟩ := exists_nearest num hden
  have hdist := (hisNearest bits).1
  rw [h, Nat.dist_self, Nat.le_zero] at hdist
  have heq := (Nat.eq_of_dist_eq_zero hdist).trans h.symm
  rw [hnearest, units_strictMono.injective (Nat.eq_of_mul_eq_mul_right hden heq)]

theorem unity_dvd_units_nearest {num : Nat} (h : nearest num 1 < infinity) :
    unity ∣ units (nearest num 1) := by
  obtain ⟨shift, significand, -, hrounded, hunits, -⟩ := exists_nearest_of_lt one_pos h
  rw [hunits]
  rcases Nat.le_total shift 1074 with hle | hge
  · have hdvd : 2 ^ shift ∣ num * unity := (two_pow_dvd_unity hle).mul_left num
    rw [hrounded, Nat.one_mul, nearestQuotient_of_dvd (Nat.two_pow_pos _) hdvd]
    exact Nat.dvd_mul_left unity num
  · exact (unity_dvd_two_pow hge).mul_left significand

/-- Half a unit of the last place above the greatest finite number. -/
def overflow : Nat := 2 ^ 1024 - 2 ^ 970

theorem units_infinity : units infinity = 2 ^ 54 * 2 ^ 2044 := by
  have hinfinity : infinity = 2045 * hiddenBit + 2 * hiddenBit := by decide
  have hbit : 2 * hiddenBit = 2 ^ 53 := by decide
  rw [hinfinity, units_add (.inr (Nat.le_mul_of_pos_left _ two_pos)) le_rfl, hbit, ← pow_add, ← pow_add]

theorem units_pred_infinity : units (infinity - 1) = (2 ^ 54 - 2) * 2 ^ 2044 := by
  have hinfinity : infinity - 1 = 2045 * hiddenBit + (2 * hiddenBit - 1) := by decide
  have hbit : (2 * hiddenBit - 1) * 2 = 2 ^ 54 - 2 := by decide
  rw [hinfinity, units_add (.inr (by decide)) (Nat.sub_le _ _), ← hbit, mul_assoc, ← pow_succ']

theorem overflow_mul_unity : overflow * unity = (2 ^ 54 - 1) * 2 ^ 2044 := by
  have hpow : (2 : Nat) ^ 1024 = 2 ^ 54 * 2 ^ 970 := by rw [← pow_add]
  have hsum : (2 : Nat) ^ 970 * 2 ^ 1074 = 2 ^ 2044 := by rw [← pow_add]
  rw [overflow, unity, hpow, ← Nat.sub_one_mul, mul_assoc, hsum]

/-- Infinity stands for all that is nearer to the next power of two than to the greatest finite number, and for what is
in the middle between them. -/
theorem nearest_eq_infinity_iff {num den : Nat} (hden : 0 < den) :
    nearest num den = infinity ↔ overflow * den ≤ num := by
  obtain ⟨shift, significand, hnearest, -, -, hisNearest⟩ := exists_nearest num hden
  have hthreshold : overflow * den ≤ num ↔ (2 ^ 54 - 1) * (2 ^ 2044 * den) ≤ num * unity := by
    rw [← mul_assoc, ← overflow_mul_unity, mul_right_comm, Nat.mul_le_mul_right_iff unity_pos]
  rw [hnearest, min_eq_left_iff, hthreshold]
  generalize shift * hiddenBit + significand = bits at hisNearest ⊢
  have hnext := hisNearest infinity
  have hlast := (hisNearest (infinity - 1)).1
  rw [units_infinity, mul_assoc] at hnext
  rw [units_pred_infinity, mul_assoc] at hlast
  constructor
  · intro hle
    have habove : 2 ^ 54 * (2 ^ 2044 * den) ≤ units bits * den := by
      rw [← mul_assoc, ← units_infinity]
      exact Nat.mul_le_mul_right den (units_strictMono.monotone hle)
    generalize 2 ^ 2044 * den = step at *
    unfold Nat.dist at hlast
    omega
  · intro hle
    by_contra hlt
    have hne : infinity ≠ bits := fun heq => hlt heq.le
    have hbelow : units bits * den ≤ (2 ^ 54 - 2) * (2 ^ 2044 * den) := by
      rw [← mul_assoc, ← units_pred_infinity]
      exact Nat.mul_le_mul_right den (units_strictMono.monotone (Nat.le_pred_of_lt (not_le.1 hlt)))
    -- the two are equally near only to the greatest finite number, which has odd bits
    have hodd : units bits * den = (2 ^ 54 - 2) * (2 ^ 2044 * den) → bits % 2 = 1 := fun heq => by
      rw [← mul_assoc, ← units_pred_infinity] at heq
      rw [units_strictMono.injective (Nat.eq_of_mul_eq_mul_right hden heq)]
      decide
    have heven := hnext.2 hne
    have hnearer := hnext.1
    have hstep : 0 < 2 ^ 2044 * den := Nat.mul_pos (pow_pos two_pos 2044) hden
    generalize 2 ^ 2044 * den = step at *
    unfold Nat.dist at hnearer heven
    omega

end ReversePolish.Binary64
