import ReversePolish.Binary64.Reading
import ReversePolish.Proofs.ExactValue
import ReversePolish.Proofs.Literals
import ReversePolish.Proofs.Shortest

/-! The decimal text of a number, read. It has digits on both sides of its point, if it has one, and no power of ten; so
it is read as the digits and the exponent that it was written from, and these read back as the number. -/
namespace ReversePolish

def minus (negative : Bool) : Text := if negative then ['-'] else []

namespace Binary64

section Positional

theorem positional_of_nonneg (digits : Nat) {exponent : Int} (h : 0 ≤ exponent) :
    positional digits exponent = Nat.toDigits 10 digits ++ List.replicate exponent.toNat '0' := by
  obtain ⟨zeros, rfl⟩ := Int.eq_ofNat_of_zero_le h
  rfl

theorem isDigit_of_mem_toDigits {digits : Nat} : ∀ c ∈ Nat.toDigits 10 digits, c.isDigit = true :=
  fun _ hc => Nat.isDigit_of_mem_toDigits (by decide) le_rfl hc

theorem exists_point (digits n : Nat) :
    ∃ whole places, positional digits (.negSucc n) = whole ++ '.' :: places ∧ whole ≠ [] ∧
      (∀ c ∈ whole ++ places, c.isDigit = true) ∧ places.length = n + 1 ∧
      Nat.ofDigitChars 10 (whole ++ places) 0 = digits := by
  rw [positional]
  split
  · rename_i hlt
    refine ⟨_, _, by rw [List.append_assoc, List.singleton_append], ?_, ?_, ?_, ?_⟩
    · rw [← List.length_pos_iff, List.length_take]
      omega
    · rw [List.take_append_drop]
      exact isDigit_of_mem_toDigits
    · rw [List.length_drop]
      omega
    · rw [List.take_append_drop, Nat.ofDigitChars_ten_toDigits]
  · rename_i hge
    refine ⟨['0'], List.replicate (n + 1 - (Nat.toDigits 10 digits).length) '0' ++ Nat.toDigits 10 digits,
      by rw [List.append_assoc]; rfl, List.cons_ne_nil _ _, fun c hc => ?_, ?_, ?_⟩
    · rcases List.mem_append.1 hc with hzero | hplaces
      · rw [List.mem_singleton.1 hzero]
        rfl
      · exact (List.mem_append.1 hplaces).elim isDigit_of_mem_zeros (isDigit_of_mem_toDigits c)
    · rw [List.length_append, List.length_replicate]
      omega
    · have hzero : Nat.ofDigitChars 10 ['0'] 0 = 0 := rfl
      rw [Nat.ofDigitChars_append, Nat.ofDigitChars_append, hzero, Nat.ofDigitChars_replicate_zero, Nat.mul_zero,
        Nat.ofDigitChars_ten_toDigits]

theorem point_mem_positional (digits : Nat) {exponent : Int} (h : exponent < 0) :
    '.' ∈ positional digits exponent := by
  obtain ⟨n, rfl⟩ := Int.eq_negSucc_of_lt_zero h
  obtain ⟨whole, places, heq, -⟩ := exists_point digits n
  rw [heq]
  exact List.mem_append_right _ List.mem_cons_self

theorem mem_positional {digits : Nat} {exponent : Int} {c : Char} (h : c ∈ positional digits exponent) :
    c.isDigit = true ∨ c = '.' := by
  rcases exponent with zeros | n
  · rw [positional, List.mem_append] at h
    exact .inl (h.elim (isDigit_of_mem_toDigits c) isDigit_of_mem_zeros)
  · obtain ⟨whole, places, heq, -, hdigits, -⟩ := exists_point digits n
    rw [heq, List.mem_append, List.mem_cons] at h
    rcases h with hwhole | rfl | hplaces
    · exact .inl (hdigits c (List.mem_append_left _ hwhole))
    · exact .inr rfl
    · exact .inl (hdigits c (List.mem_append_right _ hplaces))

theorem exists_head_positional (digits : Nat) (exponent : Int) :
    ∃ c rest, positional digits exponent = c :: rest ∧ c.isDigit = true := by
  rcases exponent with zeros | n
  · obtain ⟨c, rest, hdigits⟩ := List.exists_cons_of_ne_nil (Nat.toDigits_ne_nil (n := digits) (b := 10))
    refine ⟨c, rest ++ List.replicate zeros '0', by rw [positional, hdigits, List.cons_append], ?_⟩
    exact isDigit_of_mem_toDigits c (hdigits ▸ List.mem_cons_self)
  · obtain ⟨whole, places, heq, hne, hdigits, -⟩ := exists_point digits n
    obtain ⟨c, rest, rfl⟩ := List.exists_cons_of_ne_nil hne
    exact ⟨c, rest ++ '.' :: places, heq, hdigits c (List.mem_append_left _ List.mem_cons_self)⟩

end Positional

section Numeral

theorem numeral?_point {whole places : Text} (hne : whole ≠ []) (h : ∀ c ∈ whole ++ places, c.isDigit = true) :
    numeral? (whole ++ '.' :: places) = some (Nat.ofDigitChars 10 (whole ++ places) 0, -(places.length : Int)) := by
  have hwhole : ∀ c ∈ whole, c.isDigit = true := fun c hc => h c (List.mem_append_left _ hc)
  have hplaces : ∀ c ∈ places, c.isDigit = true := fun c hc => h c (List.mem_append_right _ hc)
  have htake : (whole ++ '.' :: places).takeWhile Char.isDigit = whole := by
    rw [List.takeWhile_append_of_pos hwhole, List.takeWhile_cons_of_neg (by decide), List.append_nil]
  have hdrop : (whole ++ '.' :: places).dropWhile Char.isDigit = '.' :: places := by
    rw [List.dropWhile_append_of_pos hwhole, List.dropWhile_cons_of_neg (by decide)]
  have hempty : whole.isEmpty = false := by simpa using hne
  rw [numeral?, htake, hdrop, decimalPlaces, List.takeWhile_eq_self_iff.2 hplaces,
    List.dropWhile_eq_nil_iff.2 hplaces, hempty]
  simp [exponent?, Literal.magnitude, Nat.ofDigitChars]

/-- What is read is the number that was written, over a power of ten that is not positive. -/
theorem numeral?_positional (digits : Nat) (exponent : Int) :
    numeral? (positional digits exponent) = some (digits * 10 ^ exponent.toNat, min exponent 0) := by
  rcases exponent with zeros | n
  · have hmem : ∀ c ∈ positional digits (.ofNat zeros), c.isDigit = true := fun c hc =>
      (List.mem_append.1 hc).elim (isDigit_of_mem_toDigits c) isDigit_of_mem_zeros
    have hvalue : Nat.ofDigitChars 10 (positional digits (.ofNat zeros)) 0 = digits * 10 ^ zeros := by
      rw [positional, Nat.ofDigitChars_append, Nat.ofDigitChars_ten_toDigits, Nat.ofDigitChars_replicate_zero,
        mul_comm]
    have hne : positional digits (.ofNat zeros) ≠ [] :=
      List.append_ne_nil_of_left_ne_nil Nat.toDigits_ne_nil _
    rw [numeral?_of_isDigit hne hmem]
    exact congrArg some (Prod.ext hvalue (min_eq_right (Int.natCast_nonneg zeros)).symm)
  · obtain ⟨whole, places, heq, hne, hdigits, hlength, hvalue⟩ := exists_point digits n
    rw [heq, numeral?_point hne hdigits, hvalue, hlength, Int.toNat_negSucc, pow_zero, Nat.mul_one,
      min_eq_left (Int.negSucc_lt_zero n).le]
    rfl

end Numeral

section Reading

variable {negative : Bool} {body : Text}

theorem ofText?_minus {c : Char} {rest : Text} (hbody : body = c :: rest) (hhead : c.isDigit = true)
    (h : ∀ c ∈ body, c.isDigit = true ∨ c = '.') :
    ofText? (minus negative ++ body) = (numeral? body).map fun (digits, power) =>
      signed negative (nearest (digits * Nat.pow 10 power.toNat) (Nat.pow 10 (-power).toNat)) := by
  have hunsigned : Literal.unsigned (minus negative ++ body) = body := by
    cases negative
    · exact hbody ▸ Literal.unsigned_cons hhead rest
    · rfl
  have hsign : ((minus negative ++ body).head? == some '-') = negative := by
    cases negative
    · have hc : c ≠ '-' := by
        rintro rfl
        cases hhead
      simpa [minus, hbody] using hc
    · rfl
  rw [ofText?_of_notLetter (hunsigned.symm ▸ h), hunsigned, hsign]

theorem ofText?_magnitudeText (negative : Bool) {bits : Nat} (h : bits ≤ infinity) :
    ofText? (minus negative ++ magnitudeText bits) = some (signed negative bits) := by
  rw [magnitudeText]
  by_cases hinfinity : bits = infinity
  · rw [if_pos hinfinity, hinfinity]
    cases negative <;> rfl
  · rw [if_neg hinfinity]
    by_cases hzero : bits = 0
    · have hnumeral : numeral? ['0'] = some (0, 0) := rfl
      have hnearest : nearest (0 * Nat.pow 10 (0 : Int).toNat) (Nat.pow 10 (-(0 : Int)).toNat) = 0 := by
        decide +kernel
      rw [if_pos hzero, hzero, ofText?_minus rfl rfl (fun c hc => .inl (List.mem_singleton.1 hc ▸ rfl)), hnumeral,
        Option.map_some]
      dsimp only
      rw [hnearest]
    · obtain ⟨c, rest, hbody, hhead⟩ := exists_head_positional (shortest bits).1 (shortest bits).2
      have hreads := readsBack_iff.1 (readsBack_shortest h)
      have hscale : Int.toNat (min (shortest bits).2 0) = 0 := Int.toNat_of_nonpos (min_le_right _ _)
      have hplaces : Int.toNat (-min (shortest bits).2 0) = Int.toNat (-(shortest bits).2) := by omega
      rw [if_neg hzero, ofText?_minus hbody hhead fun c hc => mem_positional hc, numeral?_positional,
        Option.map_some]
      dsimp only
      rw [hscale, hplaces, Nat.pow_eq, Nat.pow_eq, pow_zero, Nat.mul_one, hreads]

end Reading

variable {x : Float}

theorem text_of_le (h : magnitudeBits x ≤ infinity) :
    text x = minus (isNegative x) ++ magnitudeText (magnitudeBits x) := by
  have hnumber : ¬infinity < x.toBits.toNat % signBit := not_lt.2 h
  rw [text]
  rw [if_neg hnumber, minus, isNegative]
  by_cases hnegative : signBit ≤ x.toBits.toNat
  · rw [if_pos hnegative, if_pos (decide_eq_true hnegative)]
    rfl
  · rw [if_neg hnegative, if_neg (by simpa using hnegative)]
    rfl

theorem text_of_lt (h : infinity < magnitudeBits x) : text x = "NaN".toList := if_pos h

/-- A text stands for a number: the decimal reader gives back its bits. -/
structure Writes (s : Text) (x : Float) : Prop where
  nan : x.isNaN = true → s = "NaN".toList
  number : x.isNaN = false → ofText? s = some x

theorem writes_text (x : Float) : Writes (text x) x where
  nan := fun h => text_of_lt (isNaN_iff.1 h)
  number := fun h => by
    have hle : magnitudeBits x ≤ infinity := by
      rw [← not_lt, ← isNaN_iff, h]
      exact Bool.false_ne_true
    rw [text_of_le hle, ofText?_magnitudeText _ hle, signed_magnitudeBits]

end Binary64
end ReversePolish
