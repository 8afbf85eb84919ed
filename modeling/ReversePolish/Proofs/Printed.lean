import ReversePolish.Proofs.Forms
import ReversePolish.Proofs.LiteralValue
import ReversePolish.Proofs.RoundTrip
import ReversePolish.Proofs.Shortest

/-! Printed values as input. No text of a number has an operator in it but a minus in front, so it is always read as one
leaf. The text of a whole number is a literal that stands for the same number; every other text has a character that
no literal has, and is refused. -/
namespace ReversePolish

structure Inert (c : Char) : Prop where
  not_blank : isBlank c = false
  not_open : c ≠ '('
  not_close : c ≠ ')'
  not_symbol : ∀ op : Operator, op.symbol ≠ c

instance (c : Char) : Decidable (Inert c) :=
  decidable_of_iff (isBlank c = false ∧ c ≠ '(' ∧ c ≠ ')' ∧ ∀ op ∈ Operator.splitOrder, op.symbol ≠ c)
    ⟨fun ⟨hblank, hopen, hclose, hsymbol⟩ => ⟨hblank, hopen, hclose, fun op => hsymbol op op.mem_splitOrder⟩,
      fun ⟨hblank, hopen, hclose, hsymbol⟩ => ⟨hblank, hopen, hclose, fun op _ => hsymbol op⟩⟩

theorem inert_of_isDigit {c : Char} (h : c.isDigit = true) : Inert c where
  not_blank := isBlank_of_isDigit h
  not_open := by
    rintro rfl
    cases h
  not_close := by
    rintro rfl
    cases h
  not_symbol op := by
    rintro rfl
    rw [op.isDigit_symbol] at h
    cases h

theorem inert_of_all {s : Text} (h : (s.all fun c => decide (Inert c)) = true) : ∀ c ∈ s, Inert c :=
  fun c hc => of_decide_eq_true (List.all_eq_true.1 h c hc)

theorem Text.Whole.of_inert (negative : Bool) {s : Text} (h : ∀ c ∈ s, Inert c) :
    Text.Whole (minus negative ++ s) := by
  have hchar : ∀ c ∈ minus negative ++ s, c = '-' ∨ Inert c := by
    intro c hc
    rcases List.mem_append.1 hc with hminus | hmem
    · cases negative
      · cases hminus
      · exact .inl (List.mem_singleton.1 hminus)
    · exact .inr (h c hmem)
  have hblank : ∀ c ∈ minus negative ++ s, isBlank c = false := by
    intro c hc
    rcases hchar c hc with rfl | hinert
    · decide
    · exact hinert.not_blank
  refine ⟨⟨fun c hc => hblank c (List.mem_of_mem_head? hc), fun c hc => hblank c (List.mem_of_mem_getLast? hc)⟩,
    fun hmem => ?_, fun hmem => ?_, fun op hmem => ?_⟩
  · exact (hchar _ hmem).elim (by decide) fun hinert => hinert.not_open rfl
  · exact (hchar _ hmem).elim (by decide) fun hinert => hinert.not_close rfl
  · have hbehind : op.symbol ∈ s := by
      cases negative
      · exact List.mem_of_mem_tail hmem
      · exact hmem
    exact (h _ hbehind).not_symbol op rfl

namespace Text.Whole

variable {s : Text}

theorem parse_eq (h : s.Whole) : parse s = .ok (.leaf s) := Parse.parse_eq_ok_iff.2 h.reads

theorem evaluate_eq_ok (h : s.Whole) (hliteral : Literal.isLiteral s = true) :
    evaluate s = .ok (Literal.value s) := by
  refine evaluate_of_value? h.parse_eq ?_
  rw [Tree.value?, Text.trim_eq_self h.trimmed, if_pos hliteral]

theorem evaluate_eq_error (h : s.Whole) (hop : Operator.ofToken? s = none) (hliteral : Literal.isLiteral s = false) :
    evaluate s = .error (.run (.unrecognized s)) := by
  have htrim : s.trim = s := Text.trim_eq_self h.trimmed
  rw [evaluate_of_parse h.parse_eq, Tree.crawl_leaf,
    Machine.submit_unrecognized (htrim.symm ▸ hop) (htrim.symm ▸ hliteral), htrim]
  rfl

end Text.Whole

theorem evaluate_of_inert {negative : Bool} {s : Text} (h : ∀ c ∈ s, Inert c)
    (hletter : ∃ c ∈ s, c.isDigit = false) :
    evaluate (minus negative ++ s) = .error (.run (.unrecognized (minus negative ++ s))) := by
  obtain ⟨c, hmem, hdigit⟩ := hletter
  have hc : c ∈ minus negative ++ s := List.mem_append_right _ hmem
  refine (Text.Whole.of_inert negative h).evaluate_eq_error ?_ ?_
  · rw [Option.eq_none_iff_forall_ne_some]
    intro op hop
    rw [Operator.eq_of_ofToken? hop, List.mem_singleton] at hc
    exact (h c hmem).not_symbol op hc.symm
  · rw [Bool.eq_false_iff]
    intro hliteral
    obtain ⟨sign, digits, hspells⟩ := Literal.exists_spells hliteral
    rw [hspells.token_eq, List.mem_append] at hc
    rcases hc with hsign | hdigits
    · rcases hspells.sign_cases with rfl | rfl | rfl
      · cases hsign
      · exact (h c hmem).not_symbol .add (List.mem_singleton.1 hsign).symm
      · exact (h c hmem).not_symbol .sub (List.mem_singleton.1 hsign).symm
    · rw [hspells.isDigit c hdigits] at hdigit
      cases hdigit

namespace Binary64

section Magnitude

variable {bits : Nat}

theorem magnitudeText_whole (hlt : bits < infinity) (hwhole : unity ∣ units bits) :
    magnitudeText bits ≠ [] ∧ (∀ c ∈ magnitudeText bits, c.isDigit = true) ∧
      nearest (Nat.ofDigitChars 10 (magnitudeText bits) 0) 1 = bits := by
  rw [magnitudeText, if_neg hlt.ne]
  by_cases hzero : bits = 0
  · rw [if_pos hzero, hzero]
    exact ⟨List.cons_ne_nil _ _, List.all_eq_true.1 rfl, by decide +kernel⟩
  · have hexponent := (exponent_shortest_nonneg_iff hlt hzero).2 hwhole
    rw [if_neg hzero, positional_of_nonneg _ hexponent]
    refine ⟨List.append_ne_nil_of_left_ne_nil Nat.toDigits_ne_nil _, fun c hc => ?_, ?_⟩
    · rcases List.mem_append.1 hc with hdigit | hzeros
      · exact Nat.isDigit_of_mem_toDigits (by decide) le_rfl hdigit
      · exact isDigit_of_mem_zeros hzeros
    · rw [Nat.ofDigitChars_append, Nat.ofDigitChars_ten_toDigits, Nat.ofDigitChars_replicate_zero, mul_comm]
      exact (readsBack_integer_iff hexponent).1 (readsBack_shortest hlt.le)

theorem magnitudeText_other (hle : bits ≤ infinity) (hother : ¬(bits < infinity ∧ unity ∣ units bits)) :
    (∀ c ∈ magnitudeText bits, Inert c) ∧ ∃ c ∈ magnitudeText bits, c.isDigit = false := by
  rw [magnitudeText]
  by_cases hinfinity : bits = infinity
  · rw [if_pos hinfinity]
    exact ⟨inert_of_all (by decide), 'i', by decide, by decide⟩
  · have hlt : bits < infinity := lt_of_le_of_ne hle hinfinity
    have hplaces : ¬unity ∣ units bits := fun hdvd => hother ⟨hlt, hdvd⟩
    have hzero : bits ≠ 0 := by
      rintro rfl
      exact hplaces (units_zero ▸ dvd_zero unity)
    have hexponent := (exponent_shortest_nonneg_iff hlt hzero).not.2 hplaces
    rw [if_neg hinfinity, if_neg hzero]
    refine ⟨fun c hc => ?_, '.', point_mem_positional _ (not_le.1 hexponent), by decide⟩
    rcases mem_positional hc with hdigit | rfl
    · exact inert_of_isDigit hdigit
    · decide

end Magnitude

variable {x : Float}

def Integral (x : Float) : Prop := ∃ n : ℤ, rational? x = some (n : ℚ)

theorem integral_iff : Integral x ↔ magnitudeBits x < infinity ∧ unity ∣ units (magnitudeBits x) := by
  have hunity : (unity : ℚ) ≠ 0 := by exact_mod_cast unity_pos.ne'
  constructor
  · rintro ⟨n, hn⟩
    obtain ⟨hlt, hvalue⟩ := of_rational?_eq_some hn
    refine ⟨hlt, ?_⟩
    have hunits : (units (magnitudeBits x) : ℚ) = unity * (factor x * n) := by
      rw [hvalue, ← mul_assoc (factor x)]
      rcases factor_cases x with hfactor | hfactor
      · rw [hfactor, one_mul, one_mul, mul_div_cancel₀ _ hunity]
      · rw [hfactor, neg_one_mul, neg_neg, one_mul, mul_div_cancel₀ _ hunity]
    rcases factor_cases x with hfactor | hfactor
    · rw [hfactor, one_mul] at hunits
      exact Int.natCast_dvd_natCast.1 ⟨n, by exact_mod_cast hunits⟩
    · rw [hfactor, neg_one_mul] at hunits
      exact Int.natCast_dvd_natCast.1 ⟨-n, by exact_mod_cast hunits⟩
  · rintro ⟨hlt, n, hn⟩
    rw [Integral, rational?_of_lt hlt, hn, Nat.cast_mul, mul_div_cancel_left₀ _ hunity]
    rcases factor_cases x with hfactor | hfactor
    · exact ⟨n, by rw [hfactor, one_mul]; rfl⟩
    · exact ⟨-n, by rw [hfactor, neg_one_mul]; push_cast; rfl⟩

theorem spells_text (h : Integral x) :
    Literal.Spells (minus (isNegative x)) (magnitudeText (magnitudeBits x)) (text x) ∧
      Literal.value (text x) = x := by
  obtain ⟨hlt, hwhole⟩ := integral_iff.1 h
  obtain ⟨hne, hdigits, hnearest⟩ := magnitudeText_whole hlt hwhole
  have hsign : minus (isNegative x) = [] ∨ minus (isNegative x) = ['+'] ∨ minus (isNegative x) = ['-'] := by
    cases isNegative x
    · exact .inl rfl
    · exact .inr (.inr rfl)
  have hspells : Literal.Spells (minus (isNegative x)) (magnitudeText (magnitudeBits x)) (text x) :=
    ⟨text_of_le hlt.le, hsign, hne, hdigits⟩
  have hnegative : decide (minus (isNegative x) = ['-']) = isNegative x := by
    cases isNegative x <;> rfl
  refine ⟨hspells, ?_⟩
  rw [hspells.value_eq, hnearest, hnegative, signed_magnitudeBits]

theorem exists_text_of_not_integral (h : ¬Integral x) :
    ∃ negative s, text x = minus negative ++ s ∧ (∀ c ∈ s, Inert c) ∧ ∃ c ∈ s, c.isDigit = false := by
  rcases lt_or_ge infinity (magnitudeBits x) with hlt | hle
  · exact ⟨false, "NaN".toList, text_of_lt hlt, inert_of_all (by decide), 'N', by decide, by decide⟩
  · exact ⟨_, _, text_of_le hle, magnitudeText_other hle (integral_iff.not.1 h)⟩

theorem whole_text (x : Float) : (text x).Whole := by
  by_cases h : Integral x
  · obtain ⟨hspells, -⟩ := spells_text h
    rw [hspells.token_eq]
    exact .of_inert _ fun c hc => inert_of_isDigit (hspells.isDigit c hc)
  · obtain ⟨negative, s, htext, hinert, c, hc, -⟩ := exists_text_of_not_integral h
    rw [htext]
    exact .of_inert negative hinert

end Binary64

/-- What is printed for a value can be typed in again and is read as one leaf. If the value is finite and an integer,
then it is a literal, and its value is the same number, zero with the same sign. If it is not, then it is refused. -/
theorem printed_value_reads_back {s : Text} {x : Float} (h : evaluate s = .ok x) :
    (∀ showRpn, ∃ line, render s = .ok line ∧
      Prompt.answer showRpn s = Prompt.heading showRpn line ++ ["= ".toList ++ Binary64.text x]) ∧
    parse (Binary64.text x) = .ok (.leaf (Binary64.text x)) ∧
    (Binary64.Integral x → Literal.isLiteral (Binary64.text x) = true ∧ evaluate (Binary64.text x) = .ok x) ∧
    (¬Binary64.Integral x → evaluate (Binary64.text x) = .error (.run (.unrecognized (Binary64.text x)))) := by
  have hwhole := Binary64.whole_text x
  refine ⟨fun showRpn => ?_, hwhole.parse_eq, fun hintegral => ?_, fun hother => ?_⟩
  · rcases Prompt.answer_cases showRpn s with ⟨e, heval, -⟩ | ⟨line, m, fault, later, heval, -⟩ |
      ⟨line, y, heval, hexecute, hanswer⟩
    · rw [h] at heval
      cases heval
    · rw [h] at heval
      cases heval
    · rw [h] at heval
      cases heval
      exact ⟨line, Prompt.render_of_execute hexecute, hanswer⟩
  · obtain ⟨hspells, hvalue⟩ := Binary64.spells_text hintegral
    have heval := hwhole.evaluate_eq_ok hspells.isLiteral
    rw [hvalue] at heval
    exact ⟨hspells.isLiteral, heval⟩
  · obtain ⟨negative, s, htext, hinert, c, hc, hdigit⟩ := Binary64.exists_text_of_not_integral hother
    rw [htext]
    exact evaluate_of_inert hinert ⟨c, hc, hdigit⟩

/-- A zero with a sign is typed back as it is, and a fraction is not. -/
theorem printed_value_reads_back_signed :
    evaluate "-0*7".toList = .ok (Float.ofBits 0x8000000000000000) ∧
    evaluate "-0".toList = .ok (Float.ofBits 0x8000000000000000) ∧
    evaluate "-7/2".toList = .ok (Float.ofBits 0xC00C000000000000) ∧
    evaluate "-3.5".toList = .error (.run (.unrecognized "-3.5".toList)) := by
  have hminus : Parse.Reads "-0".toList (.leaf "-0".toList) := .leaf (by decide) (by decide)
  have hseven : Parse.Reads "7".toList (.leaf "7".toList) := .leaf (by decide) (by decide)
  have hnegative : Parse.Reads "-7".toList (.leaf "-7".toList) := .leaf (by decide) (by decide)
  have htwo : Parse.Reads "2".toList (.leaf "2".toList) := .leaf (by decide) (by decide)
  have hmul : Parse.Reads "-0*7".toList (.node .mul (.leaf "-0".toList) (.leaf "7".toList)) :=
    .node (by decide) (by decide) hminus hseven
  have hdiv : Parse.Reads "-7/2".toList (.node .div (.leaf "-7".toList) (.leaf "2".toList)) :=
    .node (by decide) (by decide) hnegative htwo
  have hproduct : evaluate "-0*7".toList = .ok (Float.ofBits 0x8000000000000000) :=
    evaluate_of_value? (Parse.parse_eq_ok_iff.2 hmul) (by decide +kernel)
  have hquotient : evaluate "-7/2".toList = .ok (Float.ofBits 0xC00C000000000000) :=
    evaluate_of_value? (Parse.parse_eq_ok_iff.2 hdiv) (by decide +kernel)
  have hzero : Binary64.text (Float.ofBits 0x8000000000000000) = "-0".toList := by decide +kernel
  have hfraction : Binary64.text (Float.ofBits 0xC00C000000000000) = "-3.5".toList := by decide +kernel
  have hintegral : Binary64.Integral (Float.ofBits 0x8000000000000000) :=
    Binary64.integral_iff.2 (by decide +kernel)
  have hother : ¬Binary64.Integral (Float.ofBits 0xC00C000000000000) :=
    Binary64.integral_iff.not.2 (by decide +kernel)
  have hback := ((printed_value_reads_back hproduct).2.2.1 hintegral).2
  have hrefused := (printed_value_reads_back hquotient).2.2.2 hother
  rw [hzero] at hback
  rw [hfraction] at hrefused
  exact ⟨hproduct, hback, hquotient, hrefused⟩

end ReversePolish
