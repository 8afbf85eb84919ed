import ReversePolish.Text

/-! The UTF-8 bytes of a text. A text can be cut at the byte positions at which a character begins or the text ends,
and only there. -/
namespace ReversePolish
namespace Text

def utf8 (s : Text) : List UInt8 := s.flatMap String.utf8EncodeChar

def size (s : Text) : Nat := s.utf8.length

/-- Whether a character begins at a byte position, or the text ends there. The bytes inside a character are those from
0x80 to 0xBF. -/
def isBoundary (s : Text) (position : Nat) : Bool :=
  position == s.size || s.utf8[position]?.any fun b => b < 0x80 || 0xC0 ≤ b

def charsBefore : Text → Nat → Nat
  | [], _ => 0
  | c :: s, position => if position = 0 then 0 else charsBefore s (position - c.utf8Size) + 1

/-- The part of a text from one byte position to another. There is none if they are out of order or beyond the end,
or if one lies inside a character. -/
def slice? (s : Text) (first last : Nat) : Option Text :=
  if first ≤ last && s.isBoundary first && s.isBoundary last then
    some ((s.take (s.charsBefore last)).drop (s.charsBefore first))
  else none

@[simp] theorem utf8_nil : utf8 [] = [] := rfl

@[simp] theorem utf8_cons (c : Char) (s : Text) : utf8 (c :: s) = String.utf8EncodeChar c ++ utf8 s := by
  simp [utf8]

@[simp] theorem utf8_append (x y : Text) : utf8 (x ++ y) = utf8 x ++ utf8 y := by
  simp [utf8]

@[simp] theorem size_nil : size [] = 0 := rfl

@[simp] theorem size_cons (c : Char) (s : Text) : size (c :: s) = c.utf8Size + size s := by
  simp [size]

@[simp] theorem size_append (x y : Text) : size (x ++ y) = size x + size y := by
  simp [size]

theorem size_le_of_sublist {x y : Text} (h : x.Sublist y) : size x ≤ size y := by
  induction h with
  | slnil => exact Nat.le_refl _
  | cons c _ ih =>
    rw [size_cons]
    omega
  | cons_cons c _ ih =>
    rw [size_cons, size_cons]
    omega

theorem size_trim_le (s : Text) : size s.trim ≤ size s := by
  have hleft : (trimLeft s).Sublist s := List.dropWhile_sublist _
  have hright : (trim s).Sublist (trimLeft s) := by
    simpa [trim, trimRight] using (List.dropWhile_sublist isBlank (l := s.trimLeft.reverse)).reverse
  exact size_le_of_sublist (hright.trans hleft)

section Encoding

theorem inside_bounds (n : Nat) :
    0x80 ≤ UInt8.ofNat (n % 64 + 128) ∧ UInt8.ofNat (n % 64 + 128) < 0xC0 := by
  rw [UInt8.le_iff_toNat_le, UInt8.lt_iff_toNat_lt, UInt8.toNat_ofNat']
  have hleast : (0x80 : UInt8).toNat = 128 := rfl
  have hbound : (0xC0 : UInt8).toNat = 192 := rfl
  omega

theorem le_ofNat {n : Nat} (h : 192 ≤ n) (hn : n < 256) : 0xC0 ≤ UInt8.ofNat n := by
  rw [UInt8.le_iff_toNat_le, UInt8.toNat_ofNat']
  have hleast : (0xC0 : UInt8).toNat = 192 := rfl
  omega

theorem toNat_toUInt8 {c : Char} (h : c.toNat < 0x80) : c.toUInt8.toNat = c.toNat := by
  rw [Char.toUInt8, UInt32.toNat_toUInt8]
  exact Nat.mod_eq_of_lt (Nat.lt_trans h (by decide))

theorem encode_ascii {c : Char} (h : c.toNat < 0x80) : String.utf8EncodeChar c = [c.toUInt8] := by
  apply String.utf8EncodeChar_eq_singleton
  rw [Char.utf8Size_eq_one_iff, UInt32.le_iff_toNat_le]
  exact Nat.le_of_lt_succ h

theorem encode_not_ascii {c : Char} (h : 0x80 ≤ c.toNat) :
    ∃ b later, String.utf8EncodeChar c = b :: later ∧ 0xC0 ≤ b ∧ ∀ x ∈ later, 0x80 ≤ x ∧ x < 0xC0 := by
  have hone : ¬c.val.toNat ≤ 127 := Nat.not_le.2 h
  have hnil : ∀ x ∈ ([] : List UInt8), 0x80 ≤ x ∧ x < 0xC0 := fun _ hx => absurd hx List.not_mem_nil
  unfold String.utf8EncodeChar
  dsimp only
  rw [if_neg hone]
  split
  · exact ⟨_, _, rfl, le_ofNat (by omega) (by omega), List.forall_mem_cons.2 ⟨inside_bounds _, hnil⟩⟩
  split
  · exact ⟨_, _, rfl, le_ofNat (by omega) (by omega), List.forall_mem_cons.2 ⟨inside_bounds _,
      List.forall_mem_cons.2 ⟨inside_bounds _, hnil⟩⟩⟩
  · exact ⟨_, _, rfl, le_ofNat (by omega) (by omega), List.forall_mem_cons.2 ⟨inside_bounds _,
      List.forall_mem_cons.2 ⟨inside_bounds _, List.forall_mem_cons.2 ⟨inside_bounds _, hnil⟩⟩⟩⟩

theorem encode_cases (c : Char) :
    ∃ b later, String.utf8EncodeChar c = b :: later ∧ (b < 0x80 ∨ 0xC0 ≤ b) ∧
      ∀ x ∈ later, 0x80 ≤ x ∧ x < 0xC0 := by
  by_cases h : c.toNat < 0x80
  · refine ⟨_, [], encode_ascii h, .inl ?_, fun _ hx => absurd hx List.not_mem_nil⟩
    rw [UInt8.lt_iff_toNat_lt, toNat_toUInt8 h]
    exact h
  · obtain ⟨b, later, hencode, hb, hlater⟩ := encode_not_ascii (Nat.le_of_not_lt h)
    exact ⟨b, later, hencode, .inr hb, hlater⟩

theorem encode_ne_nil (c : Char) : String.utf8EncodeChar c ≠ [] := by
  obtain ⟨b, later, hencode, -⟩ := encode_cases c
  rw [hencode]
  exact List.cons_ne_nil b later

theorem toUInt8_mem_encode_iff {c d : Char} (hd : d.toNat < 0x80) :
    d.toUInt8 ∈ String.utf8EncodeChar c ↔ c = d := by
  by_cases hc : c.toNat < 0x80
  · rw [encode_ascii hc, List.mem_singleton, ← UInt8.toNat_inj, toNat_toUInt8 hd, toNat_toUInt8 hc,
      Char.toNat_inj, eq_comm]
  · obtain ⟨b, later, hencode, hb, hlater⟩ := encode_not_ascii (Nat.le_of_not_lt hc)
    refine ⟨fun hmem => ?_, fun heq => absurd (heq ▸ hd) hc⟩
    have hbyte := toNat_toUInt8 hd
    have hleast : (0x80 : UInt8).toNat = 128 := rfl
    have hfirst : (0xC0 : UInt8).toNat = 192 := rfl
    rw [hencode] at hmem
    rcases List.mem_cons.1 hmem with heq | hmem
    · rw [← heq, UInt8.le_iff_toNat_le] at hb
      omega
    · have hle := (hlater _ hmem).1
      rw [UInt8.le_iff_toNat_le] at hle
      omega

end Encoding

section Boundary

@[simp] theorem isBoundary_zero (s : Text) : s.isBoundary 0 = true := by
  cases s with
  | nil => rfl
  | cons c s =>
    obtain ⟨b, later, hencode, hb, -⟩ := encode_cases c
    simp [isBoundary, hencode, hb]

theorem isBoundary_inside {c : Char} {n : Nat} (hn : 0 < n) (hlt : n < c.utf8Size) (s : Text) :
    isBoundary (c :: s) n = false := by
  obtain ⟨b, later, hencode, -, hlater⟩ := encode_cases c
  have hlength := String.length_utf8EncodeChar c
  rw [hencode, List.length_cons] at hlength
  obtain ⟨i, rfl⟩ := Nat.exists_eq_succ_of_ne_zero (Nat.ne_of_gt hn)
  have hi : i < later.length := by omega
  obtain ⟨hleast, hbound⟩ := hlater _ (List.getElem_mem hi)
  have hget : (utf8 (c :: s))[i + 1]? = some later[i] := by
    rw [utf8_cons, hencode, List.cons_append, List.getElem?_cons_succ, List.getElem?_append_left hi,
      List.getElem?_eq_getElem hi]
  have hsize : i + 1 ≠ c.utf8Size + s.size := by omega
  rw [isBoundary, hget]
  simp [hsize, hleast, hbound]

theorem isBoundary_add (c : Char) (s : Text) (n : Nat) :
    isBoundary (c :: s) (c.utf8Size + n) = isBoundary s n := by
  have hget : (utf8 (c :: s))[c.utf8Size + n]? = (utf8 s)[n]? := by
    rw [utf8_cons, ← String.length_utf8EncodeChar c, List.getElem?_append_right (Nat.le_add_right _ _),
      Nat.add_sub_cancel_left]
  rw [isBoundary, isBoundary, hget, size_cons]
  congr 1
  rw [Bool.eq_iff_iff, beq_iff_eq, beq_iff_eq]
  exact Nat.add_left_cancel_iff

theorem isBoundary_iff {s : Text} {n : Nat} :
    s.isBoundary n = true ↔ ∃ x y, s = x ++ y ∧ n = size x := by
  induction s generalizing n with
  | nil =>
    constructor
    · intro h
      exact ⟨[], [], rfl, by simpa [isBoundary] using h⟩
    · rintro ⟨x, y, hs, rfl⟩
      obtain ⟨rfl, -⟩ := List.nil_eq_append_iff.1 hs
      rfl
  | cons c s ih =>
    rcases Nat.eq_zero_or_pos n with rfl | hpos
    · exact ⟨fun _ => ⟨[], c :: s, rfl, rfl⟩, fun _ => isBoundary_zero _⟩
    by_cases hlt : n < c.utf8Size
    · rw [isBoundary_inside hpos hlt]
      refine ⟨Bool.noConfusion, ?_⟩
      rintro ⟨x, y, hs, rfl⟩
      cases x with
      | nil => exact absurd hpos (Nat.lt_irrefl 0)
      | cons d x =>
        obtain ⟨rfl, -⟩ := List.cons.inj hs
        rw [size_cons] at hlt
        omega
    · obtain ⟨m, rfl⟩ := Nat.exists_eq_add_of_le (Nat.le_of_not_lt hlt)
      rw [isBoundary_add, ih]
      constructor
      · rintro ⟨x, y, rfl, rfl⟩
        exact ⟨c :: x, y, rfl, (size_cons c x).symm⟩
      · rintro ⟨x, y, hs, hsize⟩
        cases x with
        | nil =>
          rw [size_nil] at hsize
          omega
        | cons d x =>
          obtain ⟨rfl, hrest⟩ := List.cons.inj hs
          rw [size_cons] at hsize
          exact ⟨x, y, hrest, by omega⟩

theorem charsBefore_append (x y : Text) : charsBefore (x ++ y) x.size = x.length := by
  induction x with
  | nil => cases y <;> rfl
  | cons c x ih =>
    have hpos := c.utf8Size_pos
    rw [List.cons_append, charsBefore, size_cons, if_neg (by omega), Nat.add_sub_cancel_left, ih,
      List.length_cons]

theorem prefix_of_size_le {s x y : Text} (hx : x <+: s) (hy : y <+: s) (h : x.size ≤ y.size) : x <+: y := by
  rcases List.prefix_or_prefix_of_prefix hx hy with hxy | ⟨z, rfl⟩
  · exact hxy
  · rw [size_append] at h
    cases z with
    | nil => exact ⟨[], by rw [List.append_nil, List.append_nil]⟩
    | cons c z =>
      have hpos := c.utf8Size_pos
      rw [size_cons] at h
      omega

theorem slice?_eq_some_iff {s t : Text} {first last : Nat} :
    s.slice? first last = some t ↔ ∃ x y, s = x ++ t ++ y ∧ first = x.size ∧ last = x.size + t.size := by
  constructor
  · intro h
    rw [slice?] at h
    split at h
    · rename_i hbounds
      simp only [Bool.and_eq_true, decide_eq_true_eq, isBoundary_iff] at hbounds
      obtain ⟨⟨hle, x, z, hx, rfl⟩, w, y, hs, rfl⟩ := hbounds
      obtain ⟨u, rfl⟩ := prefix_of_size_le ⟨z, hx.symm⟩ ⟨y, hs.symm⟩ hle
      rw [hs, charsBefore_append, List.append_assoc, charsBefore_append, ← List.append_assoc,
        List.take_left, List.drop_left] at h
      cases h
      exact ⟨x, y, hs, rfl, size_append x _⟩
    · cases h
  · rintro ⟨x, y, rfl, rfl, rfl⟩
    have hfirst : isBoundary (x ++ t ++ y) x.size = true :=
      isBoundary_iff.2 ⟨x, t ++ y, List.append_assoc x t y, rfl⟩
    have hlast : isBoundary (x ++ t ++ y) (x.size + t.size) = true :=
      isBoundary_iff.2 ⟨x ++ t, y, rfl, (size_append x t).symm⟩
    rw [slice?, hfirst, hlast, ← size_append, charsBefore_append, List.append_assoc, charsBefore_append,
      ← List.append_assoc, List.take_left, List.drop_left, size_append]
    simp

theorem size_slice? {s t : Text} {first last : Nat} (h : s.slice? first last = some t) :
    first + t.size = last ∧ last ≤ s.size := by
  obtain ⟨x, y, rfl, rfl, rfl⟩ := slice?_eq_some_iff.1 h
  exact ⟨rfl, by rw [size_append, size_append]; omega⟩

end Boundary

end Text
end ReversePolish
