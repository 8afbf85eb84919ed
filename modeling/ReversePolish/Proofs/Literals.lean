import Mathlib.Data.List.TakeWhile
import ReversePolish.Operator
import ReversePolish.Binary64.Reading

/-! Integer literals as tokens. A literal is not an operator, and read as a decimal text it is the number that it
stands for; so a literal is never refused. -/
namespace ReversePolish

theorem isBlank_of_isDigit {c : Char} (h : c.isDigit = true) : isBlank c = false := by
  simp only [Char.isDigit, Bool.and_eq_true, decide_eq_true_eq, UInt32.le_iff_toNat_le] at h
  have hzero : '0'.val.toNat = 48 := rfl
  have hnine : '9'.val.toNat = 57 := rfl
  have hval : c.toNat = c.val.toNat := rfl
  simp only [isBlank, blankRanges, List.any_cons, List.any_nil, Bool.or_eq_false_iff,
    Bool.and_eq_false_iff, decide_eq_false_iff_not, and_true]
  omega

theorem isDigit_of_mem_zeros {zeros : Nat} {c : Char} (h : c ∈ List.replicate zeros '0') : c.isDigit = true := by
  rw [List.eq_of_mem_replicate h]
  rfl

namespace Literal

theorem unsigned_cons {c : Char} (h : c.isDigit = true) (rest : Text) : unsigned (c :: rest) = c :: rest := by
  unfold unsigned
  split
  · rename_i heq
    cases heq
    cases h
  · rename_i heq
    cases heq
    cases h
  · rfl

theorem unsigned_of_isDigit {digits : Text} (h : ∀ c ∈ digits, c.isDigit = true) :
    unsigned digits = digits := by
  cases digits with
  | nil => rfl
  | cons c rest => exact unsigned_cons (h c List.mem_cons_self) rest

theorem isLiteral_iff {token : Text} :
    isLiteral token = true ↔ unsigned token ≠ [] ∧ ∀ c ∈ unsigned token, c.isDigit = true := by
  simp [isLiteral]

theorem ofToken?_of_isLiteral {token : Text} (h : isLiteral token = true) :
    Operator.ofToken? token = none := by
  rw [Option.eq_none_iff_forall_ne_some]
  intro op hop
  rw [Operator.eq_of_ofToken? hop] at h
  cases op <;> cases h

/-- A token is a sign, or none, and one or more digits. -/
structure Spells (sign digits token : Text) : Prop where
  token_eq : token = sign ++ digits
  sign_cases : sign = [] ∨ sign = ['+'] ∨ sign = ['-']
  ne_nil : digits ≠ []
  isDigit : ∀ c ∈ digits, c.isDigit = true

namespace Spells

variable {sign digits token : Text}

theorem unsigned_eq (h : Spells sign digits token) : unsigned token = digits := by
  obtain ⟨rfl, rfl | rfl | rfl, -, hdigits⟩ := h
  · exact unsigned_of_isDigit hdigits
  · rfl
  · rfl

theorem isLiteral (h : Spells sign digits token) : isLiteral token = true := by
  rw [isLiteral_iff, h.unsigned_eq]
  exact ⟨h.ne_nil, h.isDigit⟩

theorem notBlank (h : Spells sign digits token) : ∀ c ∈ token, isBlank c = false := by
  intro c hc
  rw [h.token_eq, List.mem_append] at hc
  rcases hc with hsign | hdigit
  · rcases h.sign_cases with rfl | rfl | rfl
    · cases hsign
    · rw [List.mem_singleton.1 hsign]
      decide
    · rw [List.mem_singleton.1 hsign]
      decide
  · exact isBlank_of_isDigit (h.isDigit c hdigit)

theorem token_ne_nil (h : Spells sign digits token) : token ≠ [] :=
  h.token_eq ▸ List.append_ne_nil_of_right_ne_nil sign h.ne_nil

theorem head_eq (h : Spells sign digits token) : (token.head? == some '-') = decide (sign = ['-']) := by
  obtain ⟨rfl, rfl | rfl | rfl, hne, hdigits⟩ := h
  · obtain ⟨c, rest, rfl⟩ := List.exists_cons_of_ne_nil hne
    have hc : c ≠ '-' := by
      rintro rfl
      exact absurd (hdigits '-' (List.mem_cons_self ..)) (by decide)
    simpa using hc
  · rfl
  · rfl

theorem prepend_zeros (h : Spells sign digits token) (zeros : Nat) :
    Spells sign (List.replicate zeros '0' ++ digits) (sign ++ List.replicate zeros '0' ++ digits) where
  token_eq := List.append_assoc ..
  sign_cases := h.sign_cases
  ne_nil := List.append_ne_nil_of_right_ne_nil _ h.ne_nil
  isDigit := fun c hc => (List.mem_append.1 hc).elim isDigit_of_mem_zeros (h.isDigit c)

theorem value_eq (h : Spells sign digits token) :
    value token = Binary64.signed (decide (sign = ['-'])) (Binary64.nearest (Nat.ofDigitChars 10 digits 0) 1) := by
  rw [value, h.unsigned_eq, h.head_eq]
  rfl

end Spells

theorem exists_spells {token : Text} (h : isLiteral token = true) : ∃ sign digits, Spells sign digits token := by
  obtain ⟨hne, hdigits⟩ := isLiteral_iff.1 h
  generalize htoken : unsigned token = digits at hne hdigits
  unfold unsigned at htoken
  split at htoken
  · subst htoken
    exact ⟨['+'], _, rfl, .inr (.inl rfl), hne, hdigits⟩
  · subst htoken
    exact ⟨['-'], _, rfl, .inr (.inr rfl), hne, hdigits⟩
  · subst htoken
    exact ⟨[], _, rfl, .inl rfl, hne, hdigits⟩

theorem notBlank_of_isLiteral {token : Text} (h : isLiteral token = true) :
    token ≠ [] ∧ ∀ c ∈ token, isBlank c = false := by
  obtain ⟨sign, digits, hspells⟩ := exists_spells h
  exact ⟨hspells.token_ne_nil, hspells.notBlank⟩

end Literal

namespace Binary64

theorem toLower_of_isDigit {c : Char} (h : c.isDigit = true) : c.toLower = c := by
  refine dif_neg ?_
  rintro ⟨hupper, -⟩
  simp only [Char.isDigit, Bool.and_eq_true, decide_eq_true_eq] at h
  exact absurd (UInt32.le_trans hupper h.2) (by decide)

theorem numeral?_of_isDigit {digits : Text} (hne : digits ≠ []) (h : ∀ c ∈ digits, c.isDigit = true) :
    numeral? digits = some (Literal.magnitude digits, 0) := by
  have htake : digits.takeWhile Char.isDigit = digits := List.takeWhile_eq_self_iff.2 h
  have hdrop : digits.dropWhile Char.isDigit = [] := List.dropWhile_eq_nil_iff.2 h
  have hempty : digits.isEmpty = false := by simpa using hne
  simp [numeral?, htake, hdrop, decimalPlaces, hempty, exponent?]

/-- What has no letter behind its sign names nothing, and is read as a numeral if at all. -/
theorem ofText?_of_notLetter {s : Text} (h : ∀ c ∈ Literal.unsigned s, c.isDigit = true ∨ c = '.') :
    ofText? s = (numeral? (Literal.unsigned s)).map fun (digits, power) =>
      signed (s.head? == some '-') (nearest (digits * Nat.pow 10 power.toNat) (Nat.pow 10 (-power).toNat)) := by
  have hlower : (Literal.unsigned s).map Char.toLower = Literal.unsigned s := by
    refine (List.map_congr_left fun c hc => ?_).trans (List.map_id _)
    rcases h c hc with hdigit | rfl
    · exact toLower_of_isDigit hdigit
    · rfl
  have hname : ∀ name : Text, (∃ c ∈ name, ¬(c.isDigit = true ∨ c = '.')) → Literal.unsigned s ≠ name := by
    rintro name ⟨c, hc, hletter⟩ rfl
    exact hletter (h c hc)
  have hinf := hname "inf".toList ⟨'i', by decide, by decide⟩
  have hinfinity := hname "infinity".toList ⟨'i', by decide, by decide⟩
  have hnan := hname "nan".toList ⟨'n', by decide, by decide⟩
  simp only [ofText?, hlower, hinf, hinfinity, hnan, or_self, if_false]

theorem ofText?_of_isLiteral {s : Text} (h : Literal.isLiteral s = true) :
    ofText? s = some (Literal.value s) := by
  obtain ⟨hne, hdigits⟩ := Literal.isLiteral_iff.1 h
  rw [ofText?_of_notLetter fun c hc => .inl (hdigits c hc), numeral?_of_isDigit hne hdigits, Option.map_some,
    Literal.value]
  simp

end Binary64
end ReversePolish
