import Mathlib.Order.Monotone.Basic
import ReversePolish.Parse.Bytes
import ReversePolish.Proofs.Level

/-! What a scan of the bytes of a text finds. The byte of an operator or a parenthesis is never part of another
character, so a scan of the bytes finds what a scan of the characters finds, each at the byte position at which its
character begins. -/
namespace ReversePolish
namespace Text

/-- The byte position at which the character at a position begins. -/
def offset : Text → Nat → Nat
  | [], i => i
  | _ :: _, 0 => 0
  | c :: s, i + 1 => c.utf8Size + offset s i

@[simp] theorem offset_zero (s : Text) : offset s 0 = 0 := by
  cases s <;> rfl

@[simp] theorem offset_cons_succ (c : Char) (s : Text) (i : Nat) :
    offset (c :: s) (i + 1) = c.utf8Size + offset s i := rfl

theorem offset_append (x y : Text) (i : Nat) : offset (x ++ y) (x.length + i) = x.size + offset y i := by
  induction x with
  | nil => simp
  | cons c x ih =>
    rw [List.cons_append, List.length_cons, Nat.add_right_comm, offset_cons_succ, ih, size_cons, Nat.add_assoc]

theorem offset_length (x y : Text) : offset (x ++ y) x.length = x.size := by
  simpa using offset_append x y 0

theorem strictMono_offset (s : Text) : StrictMono (offset s) := by
  refine strictMono_nat_of_lt_succ fun i => ?_
  induction s generalizing i with
  | nil => exact Nat.lt_succ_self i
  | cons c s ih =>
    have hpos := c.utf8Size_pos
    cases i with
    | zero =>
      rw [offset_cons_succ, offset_zero]
      exact Nat.lt_add_right _ hpos
    | succ i => exact Nat.add_lt_add_left (ih i) _

end Text

namespace Operator

theorem symbol_ascii (op : Operator) : op.symbol.toNat < 0x80 := by
  cases op <;> decide

end Operator

namespace Nesting

theorem filterMap_exposedFrom_cons (op : Operator) (start : Nat) (l : Int) (c : Char) (s : Text) :
    ((exposedFrom start l (c :: s)).filterMap fun hit => if hit.2 = op then some hit.1 else none) =
      (if c = op.symbol ∧ l ≤ 0 then [start] else []) ++
        (exposedFrom (start + 1) (l + shift c) s).filterMap fun hit =>
          if hit.2 = op then some hit.1 else none := by
  rw [exposedFrom]
  cases hc : Operator.ofSymbol? c with
  | none =>
    have hne : c ≠ op.symbol := by
      rintro rfl
      simp at hc
    simp [hne]
  | some f =>
    obtain rfl := Operator.symbol_of_ofSymbol? hc
    by_cases hl : l ≤ 0 <;> by_cases hf : f = op <;> simp [hl, hf]

end Nesting

namespace Bytes

@[simp] theorem level_nil : level [] = 0 := rfl

@[simp] theorem level_cons (b : UInt8) (bytes : List UInt8) : level (b :: bytes) = shift b + level bytes := rfl

@[simp] theorem level_append (x y : List UInt8) : level (x ++ y) = level x + level y := by
  induction x with
  | nil => simp
  | cons b x ih => rw [List.cons_append, level_cons, level_cons, ih, Int.add_assoc]

theorem shift_of_mem_encode {c : Char} (hopen : c ≠ '(') (hclose : c ≠ ')') {b : UInt8}
    (hb : b ∈ String.utf8EncodeChar c) : shift b = 0 := by
  have hopen' : b ≠ '('.toUInt8 := by
    rintro rfl
    exact hopen ((Text.toUInt8_mem_encode_iff (by decide)).1 hb)
  have hclose' : b ≠ ')'.toUInt8 := by
    rintro rfl
    exact hclose ((Text.toUInt8_mem_encode_iff (by decide)).1 hb)
  rw [shift, if_neg hopen', if_neg hclose']

theorem level_of_shift {bytes : List UInt8} (h : ∀ b ∈ bytes, shift b = 0) : level bytes = 0 := by
  induction bytes with
  | nil => rfl
  | cons b bytes ih =>
    obtain ⟨hb, hbytes⟩ := List.forall_mem_cons.1 h
    rw [level_cons, hb, ih hbytes, Int.zero_add]

theorem level_encode (c : Char) : level (String.utf8EncodeChar c) = Nesting.shift c := by
  by_cases hopen : c = '('
  · subst hopen
    rfl
  by_cases hclose : c = ')'
  · subst hclose
    rfl
  · rw [level_of_shift fun b hb => shift_of_mem_encode hopen hclose hb, Nesting.shift_eq, if_neg hopen,
      if_neg hclose]
    rfl

@[simp] theorem level_utf8 (s : Text) : level s.utf8 = Nesting.level s := by
  induction s with
  | nil => rfl
  | cons c s ih => rw [Text.utf8_cons, level_append, level_encode, ih, Nesting.level_cons]

section Outer

theorem comesToZero_of_shift {x : List UInt8} (h : ∀ b ∈ x, shift b = 0) (hne : x ≠ []) (l : Int)
    (bytes : List UInt8) : comesToZero l (x ++ bytes) = (l == 0 || comesToZero l bytes) := by
  induction x with
  | nil => exact absurd rfl hne
  | cons b x ih =>
    obtain ⟨hb, hx⟩ := List.forall_mem_cons.1 h
    rw [List.cons_append, comesToZero, hb, Int.add_zero]
    cases x with
    | nil => rfl
    | cons d x => rw [ih hx (List.cons_ne_nil d x), ← Bool.or_assoc, Bool.or_self]

theorem comesToZero_encode (c : Char) (l : Int) (bytes : List UInt8) :
    comesToZero l (String.utf8EncodeChar c ++ bytes) =
      (l + Nesting.shift c == 0 || comesToZero (l + Nesting.shift c) bytes) := by
  by_cases hopen : c = '('
  · subst hopen
    rfl
  by_cases hclose : c = ')'
  · subst hclose
    rfl
  · have hshift : Nesting.shift c = 0 := by
      rw [← level_encode, level_of_shift fun b hb => shift_of_mem_encode hopen hclose hb]
    rw [comesToZero_of_shift (fun b hb => shift_of_mem_encode hopen hclose hb) (Text.encode_ne_nil c), hshift,
      Int.add_zero]

theorem closesAtEnd_concat (l : Int) (s : Text) (c : Char) :
    Nesting.closesAtEnd l (s ++ [c]) = (!comesToZero l s.utf8 && c == ')') := by
  induction s generalizing l with
  | nil => rfl
  | cons d s ih =>
    obtain ⟨e, t, hrest⟩ :=
      List.exists_cons_of_ne_nil (List.append_ne_nil_of_right_ne_nil s (List.cons_ne_nil c []))
    rw [Text.utf8_cons, comesToZero_encode, List.cons_append, hrest, Nesting.closesAtEnd, ← hrest, ih,
      Bool.not_or, Bool.and_assoc]
    rfl

theorem head?_utf8 {d : Char} (hd : d.toNat < 0x80) (c : Char) (s : Text) :
    (Text.utf8 (c :: s)).head? = some d.toUInt8 ↔ c = d := by
  obtain ⟨b, later, hencode, -⟩ := Text.encode_cases c
  rw [Text.utf8_cons, hencode, List.cons_append, List.head?_cons, Option.some_inj]
  constructor
  · rintro rfl
    rw [← Text.toUInt8_mem_encode_iff hd, hencode]
    exact List.mem_cons_self
  · rintro rfl
    rw [Text.encode_ascii hd] at hencode
    exact (List.cons.inj hencode).1.symm

theorem getLast?_utf8 {d : Char} (hd : d.toNat < 0x80) (s : Text) (c : Char) :
    (Text.utf8 (s ++ [c])).getLast? = some d.toUInt8 ↔ c = d := by
  rw [Text.utf8_append, Text.utf8_cons, Text.utf8_nil, List.append_nil,
    List.getLast?_append_of_ne_nil _ (Text.encode_ne_nil c)]
  constructor
  · intro hlast
    exact (Text.toUInt8_mem_encode_iff hd).1 (List.mem_of_getLast? hlast)
  · rintro rfl
    rw [Text.encode_ascii hd, List.getLast?_singleton]

theorem exists_group {s : Text} (hsize : 2 ≤ s.size) (hfirst : s.utf8.head? = some '('.toUInt8)
    (hlast : s.utf8.getLast? = some ')'.toUInt8) : ∃ body, s = '(' :: body ++ [')'] := by
  cases s with
  | nil => cases hfirst
  | cons c rest =>
    obtain rfl := (head?_utf8 (by decide) c rest).1 hfirst
    rcases List.eq_nil_or_concat rest with rfl | ⟨body, d, rfl⟩
    · exact absurd hsize (by decide)
    · rw [List.concat_eq_append] at hlast ⊢
      obtain rfl := (getLast?_utf8 (by decide) ('(' :: body) d).1 hlast
      exact ⟨body, rfl⟩

theorem stripOuter?_group (body : Text) :
    stripOuter? ('(' :: body ++ [')']) = some (Nesting.stripOuter ('(' :: body ++ [')'])) := by
  have hbytes : Text.utf8 ('(' :: body ++ [')']) = '('.toUInt8 :: body.utf8 ++ [')'.toUInt8] := by
    rw [Text.utf8_append, Text.utf8_cons]
    rfl
  have hsize : Text.size ('(' :: body ++ [')']) = body.size + 2 := by
    rw [Text.size, hbytes]
    simp [Text.size]
  have hslice : Text.slice? ('(' :: body ++ [')']) 1 (body.size + 1) = some body :=
    Text.slice?_eq_some_iff.2 ⟨['('], [')'], rfl, rfl, Nat.add_comm _ _⟩
  have hlong : ¬body.size + 2 < 2 := Nat.not_lt.2 (Nat.le_add_left 2 body.size)
  have hscan : comesToZero 0 ('('.toUInt8 :: body.utf8) = comesToZero 1 body.utf8 := rfl
  have hinside : Nesting.inside? ('(' :: body ++ [')']) =
      if comesToZero 1 body.utf8 then none else some body := by
    rw [List.cons_append, Nesting.inside?, closesAtEnd_concat, List.dropLast_concat]
    cases comesToZero 1 body.utf8 <;> rfl
  rw [stripOuter?, Nesting.stripOuter, hsize, hbytes, hinside, List.dropLast_concat,
    List.getLast?_concat, hscan]
  cases comesToZero 1 body.utf8
  · simpa [hlong] using hslice
  · simp

theorem stripOuter?_eq (s : Text) : stripOuter? s = some (Nesting.stripOuter s) := by
  by_cases hgroup : ∃ body, s = '(' :: body ++ [')']
  · obtain ⟨body, rfl⟩ := hgroup
    exact stripOuter?_group body
  · have hinside : Nesting.inside? s = none := by
      rw [Option.eq_none_iff_forall_ne_some]
      exact fun inner hinner => hgroup ⟨inner, (Nesting.inside?_eq_some_iff.1 hinner).1⟩
    have hnot : (s.size < 2 || s.utf8.head? != some '('.toUInt8 || s.utf8.getLast? != some ')'.toUInt8) = true := by
      by_contra hends
      simp only [Bool.or_eq_true, decide_eq_true_eq, bne_iff_ne, not_or, not_not, Nat.not_lt] at hends
      exact hgroup (exists_group hends.1.1 hends.1.2 hends.2)
    rw [stripOuter?, if_pos hnot, Nesting.stripOuter, hinside, Option.getD_none]

end Outer

section Positions

theorem length_mask (l : Int) (bytes : List UInt8) : (mask l bytes).length = bytes.length := by
  induction bytes generalizing l with
  | nil => rfl
  | cons b bytes ih => simp [mask, ih]

theorem mask_append (l : Int) (x y : List UInt8) : mask l (x ++ y) = mask l x ++ mask (l + level x) y := by
  induction x generalizing l with
  | nil => simp [mask]
  | cons b x ih => simp [mask, ih, Int.add_assoc]

theorem mem_of_mem_mask {l : Int} {b : UInt8} {bytes : List UInt8} (h : b ∈ mask l bytes) :
    b = '_'.toUInt8 ∨ b ∈ bytes := by
  induction bytes generalizing l with
  | nil => exact absurd h List.not_mem_nil
  | cons d bytes ih =>
    rw [mask] at h
    rcases List.mem_cons.1 h with heq | hmem
    · rcases ite_eq_or_eq (0 < if d = '('.toUInt8 then l + 1 else l) '_'.toUInt8 d with hhidden | hshown
      · exact .inl (heq.trans hhidden)
      · exact .inr (List.mem_cons.2 (.inl (heq.trans hshown)))
    · exact (ih hmem).imp_right (List.mem_cons_of_mem d)

theorem positions_append (symbol : UInt8) (start : Nat) (x y : List UInt8) :
    positions symbol start (x ++ y) = positions symbol start x ++ positions symbol (start + x.length) y := by
  induction x generalizing start with
  | nil => rfl
  | cons b x ih =>
    rw [List.cons_append, positions, positions, ih, List.length_cons, Nat.add_right_comm, Nat.add_assoc]
    split <;> rfl

theorem positions_of_notMem {symbol : UInt8} {bytes : List UInt8} (h : symbol ∉ bytes) (start : Nat) :
    positions symbol start bytes = [] := by
  induction bytes generalizing start with
  | nil => rfl
  | cons b bytes ih =>
    rw [List.mem_cons, not_or] at h
    rw [positions, if_neg (Ne.symm h.1), ih h.2]

theorem positions_mask_encode (op : Operator) (start : Nat) (l : Int) (c : Char) :
    positions op.symbol.toUInt8 start (mask l (String.utf8EncodeChar c)) =
      if c = op.symbol ∧ l ≤ 0 then [start] else [] := by
  by_cases hc : c = op.symbol
  · subst hc
    rw [Text.encode_ascii op.symbol_ascii]
    have hopen : op.symbol.toUInt8 ≠ '('.toUInt8 := by cases op <;> decide
    have hmask : '_'.toUInt8 ≠ op.symbol.toUInt8 := by cases op <;> decide
    by_cases hl : l ≤ 0
    · have hlevel : ¬0 < l := Int.not_lt.2 hl
      simp [positions, mask, hopen, hl, hlevel]
    · have hlevel : 0 < l := Int.not_le.1 hl
      simp [positions, mask, hopen, hmask, hl, hlevel]
  · have hnot : op.symbol.toUInt8 ∉ mask l (String.utf8EncodeChar c) := by
      intro hmem
      rcases mem_of_mem_mask hmem with heq | hmem
      · revert heq
        cases op <;> decide
      · exact hc ((Text.toUInt8_mem_encode_iff op.symbol_ascii).1 hmem)
    rw [positions_of_notMem hnot, if_neg fun h => hc h.1]

theorem positions_utf8 (op : Operator) (s : Text) (l : Int) (start first : Nat) {f : Nat → Nat}
    (hf : ∀ i, f (first + i) = start + s.offset i) :
    positions op.symbol.toUInt8 start (mask l s.utf8) =
      ((Nesting.exposedFrom first l s).filterMap fun hit =>
        if hit.2 = op then some hit.1 else none).map f := by
  induction s generalizing l start first with
  | nil => rfl
  | cons c s ih =>
    have hfirst : f first = start := by simpa using hf 0
    have hrest : ∀ i, f (first + 1 + i) = start + c.utf8Size + Text.offset s i := by
      intro i
      rw [Nat.add_assoc first 1 i, Nat.add_comm 1 i, hf, Text.offset_cons_succ, Nat.add_assoc]
    rw [Text.utf8_cons, mask_append, positions_append, length_mask, String.length_utf8EncodeChar, level_encode,
      positions_mask_encode, ih _ _ _ hrest, Nesting.filterMap_exposedFrom_cons, List.map_append]
    split <;> simp [hfirst]

end Positions

end Bytes

namespace Splits

def relabel (f : Nat → Nat) (splits : Splits) : Splits :=
  splits.map fun entry => (entry.1, entry.2.map f)

/-- A search depends on nothing but the order of the positions. -/
theorem next_relabel {f : Nat → Nat} (hf : StrictMono f) (lead : Nat) (splits : Splits) :
    (splits.relabel f).next (f lead) =
      ((splits.next lead).1.map fun hit => (f hit.1, hit.2), (splits.next lead).2.relabel f) := by
  induction splits with
  | nil => rfl
  | cons entry tighter ih =>
    obtain ⟨op, ahead⟩ := entry
    have hdrop : (ahead.map f).dropWhile (· ≤ f lead) = (ahead.dropWhile (· ≤ lead)).map f := by
      rw [List.dropWhile_map]
      refine congrArg (fun p => (List.dropWhile p ahead).map f) (funext fun i => ?_)
      simp [hf.le_iff_le]
    have hrelabel : relabel f ((op, ahead) :: tighter) = (op, ahead.map f) :: relabel f tighter := rfl
    rw [hrelabel]
    cases hahead : ahead.dropWhile (· ≤ lead) with
    | nil =>
      rw [hahead, List.map_nil] at hdrop
      rw [next_cons_of_passed hdrop, next_cons_of_passed hahead, ih]
      rfl
    | cons position later =>
      rw [hahead, List.map_cons] at hdrop
      rw [next_cons_of_dropWhile hdrop, next_cons_of_dropWhile hahead]
      rfl

end Splits

namespace Bytes

theorem prepare_eq (s : Text) : prepare s = (Parse.prepare s).map (Splits.relabel s.offset) := by
  by_cases hlevel : Nesting.level s = 0
  · rw [prepare, level_utf8, if_pos hlevel, Parse.prepare, if_pos (Nesting.balanced_iff.2 hlevel)]
    simp only [Except.map, Splits.ofText, Splits.relabel, List.map_map, Function.comp_def]
    refine congrArg Except.ok (List.map_congr_left fun op _ => Prod.ext rfl ?_)
    rw [Nesting.exposed, Nesting.collect_eq, List.reverse_nil, List.nil_append]
    exact positions_utf8 op s 0 0 0 fun i => by rw [Nat.zero_add, Nat.zero_add]
  · have hbalanced : ¬Nesting.balanced s = true := fun h => hlevel (Nesting.balanced_iff.1 h)
    rw [prepare, level_utf8, if_neg hlevel, Parse.prepare, if_neg hbalanced]
    rfl

end Bytes
end ReversePolish
