import ReversePolish.Proofs.Trim

/-! The words of a text. A blank parts the words before it from the words after it, and the rest follows: outer
blanks do not count, a text without a blank is one word, and a line of tokens has the words of its tokens. -/
namespace ReversePolish
namespace Text

theorem closeWord_append (word : Text) (x y : List Text) :
    closeWord (word, x ++ y) = closeWord (word, x) ++ y := by
  cases word <;> rfl

/-- Words already closed stay behind those of the text in front of them. -/
theorem foldr_wordStep (s : Text) (later : List Text) :
    s.foldr wordStep ([], later) =
      ((s.foldr wordStep ([], [])).1, (s.foldr wordStep ([], [])).2 ++ later) := by
  induction s with
  | nil => rfl
  | cons c s ih =>
    rw [List.foldr_cons, List.foldr_cons, ih]
    by_cases hc : isBlank c = true
    · simp [wordStep, hc, closeWord_append]
    · simp [wordStep, hc]

theorem words_append_cons {c : Char} (hc : isBlank c = true) (x y : Text) :
    words (x ++ c :: y) = words x ++ words y := by
  have hopen : (c :: y).foldr wordStep ([], []) = ([], words y) := by
    simp [wordStep, hc, words]
  rw [words, List.foldr_append, hopen, foldr_wordStep, closeWord_append]
  rfl

theorem words_blank_append {a : Text} (ha : Blank a) (s : Text) : words (a ++ s) = words s := by
  induction a with
  | nil => rfl
  | cons c a ih =>
    obtain ⟨hc, ha⟩ := List.forall_mem_cons.1 ha
    have hsplit := words_append_cons hc [] (a ++ s)
    rw [List.nil_append, words_nil, List.nil_append] at hsplit
    rw [List.cons_append, hsplit, ih ha]

theorem words_blank {a : Text} (ha : Blank a) : words a = [] := by
  simpa using words_blank_append ha []

theorem words_append_blank {b : Text} (hb : Blank b) (s : Text) : words (s ++ b) = words s := by
  cases b with
  | nil => rw [List.append_nil]
  | cons c b =>
    obtain ⟨hc, hb⟩ := List.forall_mem_cons.1 hb
    rw [words_append_cons hc, words_blank hb, List.append_nil]

theorem words_trim (s : Text) : words s.trim = words s := by
  obtain ⟨a, b, ha, hb, hs⟩ := exists_trim s
  conv_rhs => rw [hs]
  rw [words_append_blank hb, words_blank_append ha]

theorem foldr_wordStep_of_notBlank {s : Text} (h : ∀ c ∈ s, isBlank c = false) :
    s.foldr wordStep ([], []) = (s, []) := by
  induction s with
  | nil => rfl
  | cons c s ih =>
    obtain ⟨hc, hs⟩ := List.forall_mem_cons.1 h
    rw [List.foldr_cons, ih hs]
    simp [wordStep, hc]

theorem words_of_notBlank {s : Text} (hne : s ≠ []) (h : ∀ c ∈ s, isBlank c = false) :
    words s = [s] := by
  obtain ⟨c, s, rfl⟩ := List.exists_cons_of_ne_nil hne
  rw [words, foldr_wordStep_of_notBlank h]
  rfl

theorem trim_of_notBlank {s : Text} (h : ∀ c ∈ s, isBlank c = false) : s.trim = s :=
  trim_eq_self ⟨fun c hc => h c (List.mem_of_mem_head? hc), fun c hc => h c (List.mem_of_mem_getLast? hc)⟩

theorem words_joined (tokens : List Text) : words (joined tokens) = tokens.flatMap words := by
  induction tokens with
  | nil => rfl
  | cons token tokens ih =>
    cases tokens with
    | nil => simp [joined]
    | cons next tokens =>
      have hspace : isBlank ' ' = true := by decide
      have hjoined : joined (token :: next :: tokens) = token ++ ' ' :: joined (next :: tokens) := by
        simp [joined]
      rw [hjoined, words_append_cons hspace, ih]
      rfl

end Text
end ReversePolish
