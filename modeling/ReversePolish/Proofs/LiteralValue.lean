import ReversePolish.Proofs.ExactValue
import ReversePolish.Proofs.TreeValue
import ReversePolish.Proofs.Words

/-! The number that an integer literal puts on the stack. It is the finite number nearest to the integer, or infinity if
that is out of reach, and the sign is that of the text, also of zero. All other tokens but the symbols are refused. -/
namespace ReversePolish
namespace Binary64

/-- A finite number than which no other is nearer to `q`; if another one is equally near, its last bit is zero. -/
def NearestTo (x : Float) (q : ℚ) : Prop :=
  ∃ v, rational? x = some v ∧ ∀ y w, rational? y = some w →
    |v - q| ≤ |w - q| ∧ (|v - q| = |w - q| → v ≠ w → x.toBits.toNat % 2 = 0)

section Distance

variable {f g a b : ℚ}

theorem factor_cases (x : Float) : factor x = 1 ∨ factor x = -1 := by
  unfold factor
  split
  · exact .inr rfl
  · exact .inl rfl

theorem abs_mul_sub_mul (hf : f = 1 ∨ f = -1) : |f * a - f * b| = |a - b| := by
  rw [← mul_sub, abs_mul]
  rcases hf with rfl | rfl
  · rw [abs_one, one_mul]
  · rw [abs_neg, abs_one, one_mul]

/-- Numbers are at least as far apart as their magnitudes. If they are not further, their signs are the same or one of
them is zero. -/
theorem abs_sub_le_of_signs (hf : f = 1 ∨ f = -1) (hg : g = 1 ∨ g = -1) (ha : 0 ≤ a) (hb : 0 ≤ b) :
    |a - b| ≤ |f * a - g * b| ∧ (|f * a - g * b| = |a - b| → f = g ∨ a = 0 ∨ b = 0) := by
  by_cases hsign : f = g
  · subst hsign
    rw [abs_mul_sub_mul hf]
    exact ⟨le_rfl, fun _ => .inl rfl⟩
  · have hsum : |f * a - g * b| = a + b := by
      rcases hf with rfl | rfl <;> rcases hg with rfl | rfl
      · exact absurd rfl hsign
      · rw [one_mul, neg_one_mul, sub_neg_eq_add, abs_of_nonneg (add_nonneg ha hb)]
      · rw [one_mul, neg_one_mul, ← neg_add', abs_neg, abs_of_nonneg (add_nonneg ha hb)]
      · exact absurd rfl hsign
    rw [hsum]
    refine ⟨abs_sub_le_iff.2 ⟨by linarith, by linarith⟩, fun h => .inr ?_⟩
    rcases abs_choice (a - b) with habs | habs
    · exact .inr (by linarith)
    · exact .inl (by linarith)

theorem abs_sub_cast (m n : ℕ) : |(m : ℚ) - n| = (Nat.dist m n : ℕ) := by
  rcases Nat.le_total m n with hle | hge
  · rw [Nat.dist_eq_sub_of_le hle, Nat.cast_sub hle, abs_sub_comm]
    exact abs_of_nonneg (sub_nonneg.2 (by exact_mod_cast hle))
  · rw [Nat.dist_eq_sub_of_le_right hge, Nat.cast_sub hge]
    exact abs_of_nonneg (sub_nonneg.2 (by exact_mod_cast hge))

theorem abs_sub_unity (m n : ℕ) : |(m : ℚ) / unity - n| = (Nat.dist m (n * unity) : ℕ) / unity := by
  have hunity : (0 : ℚ) < unity := by exact_mod_cast unity_pos
  rw [← abs_sub_cast, Nat.cast_mul, ← mul_div_cancel_right₀ (n : ℚ) hunity.ne', ← sub_div, abs_div,
    abs_of_pos hunity, mul_div_cancel_right₀ (n : ℚ) hunity.ne']

end Distance

theorem eq_zero_of_isNearest {num bits : Nat} (hnearest : IsNearest num 1 bits)
    (h : (units bits : ℚ) / unity = 0 ∨ (num : ℚ) = 0) : bits = 0 := by
  rcases h with hzero | hzero
  · rw [div_eq_zero_iff, Nat.cast_eq_zero, Nat.cast_eq_zero] at hzero
    exact eq_zero_of_units (hzero.resolve_right unity_pos.ne')
  · have hdist := (hnearest 0).1
    rw [Nat.cast_eq_zero.1 hzero, Nat.zero_mul, Nat.mul_one, units_zero, Nat.zero_mul, Nat.dist_self,
      Nat.le_zero] at hdist
    exact eq_zero_of_units (Nat.eq_of_dist_eq_zero hdist)

theorem nearestTo_signed (negative : Bool) {num bits : Nat} (hnearest : IsNearest num 1 bits) (hlt : bits < infinity) :
    NearestTo (signed negative bits) (if negative then -(num : ℚ) else num) := by
  have hunity : (0 : ℚ) < unity := by exact_mod_cast unity_pos
  have hbits := magnitudeBits_signed negative hlt.le
  have hvalue := rational?_of_lt (hbits ▸ hlt)
  have hsign := factor_cases (signed negative bits)
  have hinteger : (if negative then -(num : ℚ) else num) = factor (signed negative bits) * num := by
    rw [factor_signed negative hlt.le]
    cases negative
    · exact (one_mul _).symm
    · exact (neg_one_mul _).symm
  rw [hbits] at hvalue
  rw [hinteger]
  refine ⟨_, hvalue, fun y w hy => ?_⟩
  obtain ⟨-, rfl⟩ := of_rational?_eq_some hy
  rw [abs_mul_sub_mul hsign, toBits_signed_mod_two negative hlt.le]
  obtain ⟨hfar, hsigns⟩ := abs_sub_le_of_signs (factor_cases y) hsign
    (div_nonneg (Nat.cast_nonneg (units (magnitudeBits y))) hunity.le) (Nat.cast_nonneg num)
  obtain ⟨hnear, htie⟩ := hnearest (magnitudeBits y)
  rw [mul_one, mul_one] at hnear htie
  have hle : |(units bits : ℚ) / unity - num| ≤ |(units (magnitudeBits y) : ℚ) / unity - num| := by
    rw [abs_sub_unity, abs_sub_unity, div_le_div_iff_of_pos_right hunity]
    exact_mod_cast hnear
  refine ⟨hle.trans hfar, fun heq hne => ?_⟩
  by_cases hsame : magnitudeBits y = bits
  · -- only a zero is as near as the number with the other sign
    rw [hsame] at hsigns heq hne
    rcases hsigns heq.symm with hfactor | hzero
    · exact absurd (by rw [hfactor]) hne
    · rw [eq_zero_of_isNearest hnearest hzero]
  · refine htie hsame ?_
    have hdist := le_antisymm hle (heq ▸ hfar)
    rw [abs_sub_unity, abs_sub_unity, div_left_inj' hunity.ne'] at hdist
    exact_mod_cast hdist

section Unique

variable {x y : Float} {q : ℚ}

theorem not_near_of_between {u v w p : ℚ} (hv : v < u) (hw : u < w) (hnear : |v - p| ≤ |u - p|) :
    |u - p| < |w - p| := by
  rcases le_or_gt p u with hle | hgt
  · rw [abs_of_nonneg (by linarith), abs_of_nonneg (by linarith)]
    linarith
  · rw [abs_of_neg (by linarith), abs_of_neg (by linarith)] at hnear
    linarith

theorem value_lt {m n : Nat} (h : m < n) : (units m : ℚ) / unity < units n / unity := by
  have hunity : (0 : ℚ) < unity := by exact_mod_cast unity_pos
  rw [div_lt_div_iff_of_pos_right hunity]
  exact_mod_cast units_strictMono h

/-- Of two numbers with even bits another one is between, so they are not both nearest. -/
theorem NearestTo.magnitudeBits_le (hx : NearestTo x q) (hy : NearestTo y q) (hsign : isNegative x = isNegative y) :
    magnitudeBits y ≤ magnitudeBits x := by
  obtain ⟨v, hv, hxnear⟩ := hx
  obtain ⟨w, hw, hynear⟩ := hy
  obtain ⟨-, rfl⟩ := of_rational?_eq_some hv
  obtain ⟨hylt, rfl⟩ := of_rational?_eq_some hw
  have hfactor : factor y = factor x := by rw [factor, factor, hsign]
  rw [hfactor] at hynear hw
  by_contra hlt
  rw [not_le] at hlt
  have hf := factor_cases x
  have hne : factor x * (units (magnitudeBits x) / unity) ≠ factor x * (units (magnitudeBits y) / unity) := by
    intro h
    rcases hf with hf | hf <;> rw [hf] at h <;> linarith [value_lt hlt]
  have heq := le_antisymm (hxnear y _ hw).1 (hynear x _ hv).1
  have hxeven := (hxnear y _ hw).2 heq hne
  have hyeven := (hynear x _ hv).2 heq.symm hne.symm
  rw [← magnitudeBits_mod_two] at hxeven hyeven
  have hnext : magnitudeBits x + 1 < magnitudeBits y := by omega
  have hbits := magnitudeBits_signed (isNegative x) (hnext.trans hylt).le
  have hz := rational?_of_lt (hbits.symm ▸ hnext.trans hylt)
  have hzfactor : factor (signed (isNegative x) (magnitudeBits x + 1)) = factor x := by
    rw [factor_signed _ (hnext.trans hylt).le, factor]
  rw [hbits, hzfactor] at hz
  have hxz := (hxnear _ _ hz).1
  have hyz := (hynear _ _ hz).1
  have hq : q = factor x * (factor x * q) := by
    rcases hf with hf | hf <;> rw [hf] <;> ring
  rw [hq, abs_mul_sub_mul hf, abs_mul_sub_mul hf] at hxz hyz
  exact absurd (not_near_of_between (value_lt (Nat.lt_succ_self _)) (value_lt hnext) hxz) (not_lt.2 hyz)

theorem eq_of_bits (hsign : isNegative x = isNegative y) (hbits : magnitudeBits x = magnitudeBits y) : y = x := by
  rw [← signed_magnitudeBits x, hsign, hbits, signed_magnitudeBits]

end Unique

/-- The number that an integer with a sign and a magnitude is rounded to. Zero has a sign too. -/
structure Rounds (negative : Bool) (n : Nat) (x : Float) : Prop where
  sign : x.toBits.toNat.testBit 63 = negative
  isInf_iff : x.isInf = true ↔ 2 ^ 1024 - 2 ^ 970 ≤ n
  nearest : x.isInf = false → NearestTo x (if negative then -(n : ℚ) else n)

theorem rounds_signed (negative : Bool) (n : Nat) : Rounds negative n (signed negative (nearest n 1)) where
  sign := by
    have hle := nearest_le_infinity n 1
    rw [toNat_toBits_signed negative hle, Nat.testBit_eq_decide_div_mod_eq]
    unfold infinity at hle
    cases negative
    · rw [if_neg Bool.false_ne_true]
      simp
      omega
    · rw [if_pos rfl, signBit]
      simp
      omega
  isInf_iff := by
    rw [Binary64.isInf_iff, magnitudeBits_signed negative (nearest_le_infinity n 1),
      nearest_eq_infinity_iff one_pos, Nat.mul_one, overflow]
  nearest := by
    intro hfinite
    have hlt : Binary64.nearest n 1 < infinity := by
      refine lt_of_le_of_ne (nearest_le_infinity n 1) fun heq => ?_
      rw [Bool.eq_false_iff, Ne, Binary64.isInf_iff, magnitudeBits_signed negative heq.le] at hfinite
      exact hfinite heq
    obtain ⟨-, -, -, -, -, hnearest⟩ := exists_nearest_of_lt one_pos hlt
    exact nearestTo_signed negative hnearest hlt

theorem Rounds.unique {negative : Bool} {n : Nat} {x y : Float} (hx : Rounds negative n x)
    (hy : Rounds negative n y) : y = x := by
  have hsign : isNegative x = isNegative y := by
    rw [← testBit_eq_isNegative, ← testBit_eq_isNegative, hx.sign, hy.sign]
  have hinf : x.isInf = y.isInf := Bool.eq_iff_iff.2 (hx.isInf_iff.trans hy.isInf_iff.symm)
  refine eq_of_bits hsign ?_
  cases hxinf : x.isInf with
  | false =>
    have hxnear := hx.nearest hxinf
    have hynear := hy.nearest (hinf ▸ hxinf)
    exact le_antisymm (hynear.magnitudeBits_le hxnear hsign.symm) (hxnear.magnitudeBits_le hynear hsign)
  | true => rw [Binary64.isInf_iff.1 hxinf, Binary64.isInf_iff.1 (hinf ▸ hxinf)]

end Binary64

namespace Literal.Spells

variable {sign digits sign' digits' token token' : Text}

theorem trim_eq (h : Spells sign digits token) : token.trim = token := Text.trim_of_notBlank h.notBlank

theorem rounds_value (h : Spells sign digits token) :
    Binary64.Rounds (decide (sign = ['-'])) (Nat.ofDigitChars 10 digits 0) (value token) :=
  h.value_eq ▸ Binary64.rounds_signed _ _

theorem submit_eq (h : Spells sign digits token.trim) (m : Machine) :
    m.submit token = m.push
      (Binary64.signed (decide (sign = ['-'])) (Binary64.nearest (Nat.ofDigitChars 10 digits 0) 1)) := by
  rw [Machine.submit_literal h.isLiteral, h.value_eq]

theorem submit_congr (h : Spells sign digits token.trim) (h' : Spells sign' digits' token')
    (hsign : sign' = ['-'] ↔ sign = ['-']) (hdigits : Nat.ofDigitChars 10 digits' 0 = Nat.ofDigitChars 10 digits 0)
    (m : Machine) : m.submit token' = m.submit token := by
  have htrim : Spells sign' digits' token'.trim := h'.trim_eq.symm ▸ h'
  rw [h.submit_eq, htrim.submit_eq, hdigits, decide_eq_decide.2 hsign]

end Literal.Spells

namespace Machine

/-- A token that is a sign, or none, and digits is read without a fault, whatever is on the stack and however long it
is. It puts on the stack what its integer is rounded to, also if zeros are put before the digits, and the same with a
plus as without a sign. All other tokens but the symbols leave the stack as it is and raise one fault. -/
theorem submit_reads_integer (m : Machine) (token : Text) :
    (∀ sign digits, Literal.Spells sign digits token.trim → ∃ x, Binary64.ofText? token.trim = some x ∧
      m.submit token = ⟨x :: m.stack, m.faults⟩ ∧
      Binary64.Rounds (decide (sign = ['-'])) (Nat.ofDigitChars 10 digits 0) x ∧
      (∀ zeros, m.submit (sign ++ List.replicate zeros '0' ++ digits) = m.submit token) ∧
      (sign ≠ ['-'] → m.submit digits = m.submit token ∧ m.submit ('+' :: digits) = m.submit token)) ∧
    ((∀ sign digits, ¬Literal.Spells sign digits token.trim) → (∀ op, token.trim ≠ [Operator.symbol op]) →
      m.submit token = ⟨m.stack, .unrecognized token.trim :: m.faults⟩) := by
  constructor
  · intro sign digits h
    refine ⟨_, Binary64.ofText?_of_isLiteral h.isLiteral, submit_literal h.isLiteral m,
      h.rounds_value, fun zeros => ?_, fun hplus => ⟨?_, ?_⟩⟩
    · refine h.submit_congr (h.prepend_zeros zeros) Iff.rfl ?_ m
      rw [Nat.ofDigitChars_append, Nat.ofDigitChars_replicate_zero, Nat.mul_zero]
    · exact h.submit_congr ⟨rfl, .inl rfl, h.ne_nil, h.isDigit⟩ (iff_of_false (by decide) hplus) rfl m
    · exact h.submit_congr ⟨rfl, .inr (.inl rfl), h.ne_nil, h.isDigit⟩ (iff_of_false (by decide) hplus) rfl m
  · intro hliteral hop
    refine submit_unrecognized ?_ ?_ m
    · rw [Option.eq_none_iff_forall_ne_some]
      exact fun op h => hop op (Operator.eq_of_ofToken? h)
    · rw [Bool.eq_false_iff]
      intro h
      obtain ⟨sign, digits, hspells⟩ := Literal.exists_spells h
      exact hliteral sign digits hspells

/-- The integer -(2 ^ 53 + 1) is halfway between two numbers, of which -(2 ^ 53) is even. -/
theorem submit_reads_integer_halfway :
    Literal.Spells ['-'] "09007199254740993".toList (Text.trim " -09007199254740993 ".toList) ∧
    fresh.submit " -09007199254740993 ".toList = ⟨[Float.ofBits 0xC340000000000000], []⟩ ∧
    (∀ sign digits, ¬Literal.Spells sign digits (Text.trim " 1.5".toList)) ∧
    (∀ op, Text.trim " 1.5".toList ≠ [Operator.symbol op]) ∧
    fresh.submit " 1.5".toList = ⟨[], [.unrecognized "1.5".toList]⟩ := by
  have hspells : Literal.Spells ['-'] "09007199254740993".toList (Text.trim " -09007199254740993 ".toList) :=
    ⟨by decide +kernel, .inr (.inr rfl), by decide, List.all_eq_true.1 rfl⟩
  have hvalue : Binary64.ofText? (Text.trim " -09007199254740993 ".toList) =
      some (Float.ofBits 0xC340000000000000) := by decide +kernel
  have hnumeral : ∀ sign digits, ¬Literal.Spells sign digits (Text.trim " 1.5".toList) :=
    fun sign digits h => absurd h.isLiteral (by decide)
  have hsymbol : ∀ op, Text.trim " 1.5".toList ≠ [Operator.symbol op] := fun op => by cases op <;> decide
  obtain ⟨x, hx, hsubmit, -⟩ := (submit_reads_integer fresh " -09007199254740993 ".toList).1 _ _ hspells
  rw [hvalue, Option.some.injEq] at hx
  subst hx
  exact ⟨hspells, hsubmit, hnumeral, hsymbol, (submit_reads_integer fresh " 1.5".toList).2 hnumeral hsymbol⟩

end Machine
end ReversePolish
