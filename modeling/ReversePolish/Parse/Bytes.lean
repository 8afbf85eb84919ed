import ReversePolish.Parse
import ReversePolish.Text.Utf8

/-! Reading on the UTF-8 bytes of a text. Parentheses and operators are looked for byte by byte, positions are byte
positions, and texts are sliced at them. A slice that is not there, and a difference below zero, end everything with
`none`. -/
namespace ReversePolish
namespace Bytes

def shift (b : UInt8) : Int :=
  if b = '('.toUInt8 then 1 else if b = ')'.toUInt8 then -1 else 0

def level : List UInt8 → Int
  | [] => 0
  | b :: bytes => shift b + level bytes

def comesToZero : (level : Int) → List UInt8 → Bool
  | _, [] => false
  | level, b :: bytes => level + shift b == 0 || comesToZero (level + shift b) bytes

/-- The text without its first and last byte, if these are `(` and `)` and the level stays off zero in between. -/
def stripOuter? (s : Text) : Option Text :=
  if s.size < 2 || s.utf8.head? != some '('.toUInt8 || s.utf8.getLast? != some ')'.toUInt8 then some s
  else if comesToZero 0 s.utf8.dropLast then some s
  else s.slice? 1 (s.size - 1)

/-- The bytes with `_` in the place of all that is inside parentheses, and of the parentheses. -/
def mask : (level : Int) → List UInt8 → List UInt8
  | _, [] => []
  | level, b :: bytes =>
    let inside := if b = '('.toUInt8 then level + 1 else level
    (if 0 < inside then '_'.toUInt8 else b) :: mask (level + shift b) bytes

def positions (symbol : UInt8) : (start : Nat) → List UInt8 → List Nat
  | _, [] => []
  | start, b :: bytes =>
    if b = symbol then start :: positions symbol (start + 1) bytes else positions symbol (start + 1) bytes

def prepare (s : Text) : Except ParseError Splits :=
  if level s.utf8 = 0 then
    .ok (Operator.splitOrder.map fun op => (op, positions op.symbol.toUInt8 0 (mask 0 s.utf8)))
  else .error (.unbalanced s)

/-- A difference that must not be negative. -/
def minus? (a b : Nat) : Option Nat := if b ≤ a then some (a - b) else none

def lead? (start : Nat) (rest : Text) : Option Nat := minus? (start + rest.size) rest.trimLeft.size

/-- The text from `start` to a position, and the text behind the byte there. Both are sliced before either is read. -/
def cut? (s : Text) (start position : Nat) : Option (Text × Text) :=
  match s.slice? start position, s.slice? (position + 1) s.size with
  | some left, some right => some (left, right)
  | _, _ => none

def bare? (s : Text) : Option Text := (stripOuter? s.trim).map Text.trim

theorem size_stripOuter?_le {s t : Text} (h : stripOuter? s = some t) : t.size ≤ s.size := by
  unfold stripOuter? at h
  split at h
  · cases h
    exact Nat.le_refl _
  · split at h
    · cases h
      exact Nat.le_refl _
    · have hsize := Text.size_slice? h
      omega

theorem size_bare?_le {s t : Text} (h : bare? s = some t) : t.size ≤ s.size := by
  obtain ⟨inner, hinner, rfl⟩ := Option.map_eq_some_iff.1 h
  exact Nat.le_trans (Text.size_trim_le inner) (Nat.le_trans (size_stripOuter?_le hinner) (Text.size_trim_le s))

theorem size_cut? {s left right : Text} {start position : Nat} (h : cut? s start position = some (left, right)) :
    start + left.size = position ∧ position + 1 + right.size = s.size := by
  unfold cut? at h
  split at h
  · rename_i hleft hright
    cases h
    exact ⟨(Text.size_slice? hleft).1, (Text.size_slice? hright).1⟩
  · cases h

mutual

/-- The tree of a text or its error, or `none` if anything on the way to it fails. -/
def parse? (s : Text) : Option (Except ParseError Tree) :=
  match _hbare : bare? s with
  | none => none
  | some t =>
    match prepare t with
    | .error e => some (.error e)
    | .ok splits => spine? t 0 splits []
termination_by 2 * s.size + 1
decreasing_by
  have hsize := size_bare?_le _hbare
  omega

def spine? (s : Text) (start : Nat) (splits : Splits) (chain : List (Operator × Tree)) :
    Option (Except ParseError Tree) :=
  match s.slice? start s.size with
  | none => none
  | some rest =>
    match lead? start rest with
    | none => none
    | some lead =>
      match splits.next lead with
      | (none, _) => some (.ok (Parse.join chain (.ofText rest)))
      | (some (position, op), ahead) =>
        match _hcut : cut? s start position with
        | none => none
        | some (left, right) =>
          match parse? left with
          | none => none
          | some (.error e) => some (.error e)
          | some (.ok lhs) =>
            match _hstrip : stripOuter? right.trim with
            | none => none
            | some inner =>
              if _hgroup : inner.size < right.trim.size then
                match prepare inner.trim with
                | .error e => some (.error e)
                | .ok splits' => spine? inner.trim 0 splits' ((op, lhs) :: chain)
              else spine? s (position + 1) ahead ((op, lhs) :: chain)
termination_by 2 * (s.size - start)
decreasing_by
  · have hsize := size_cut? _hcut
    omega
  · have hsize := size_cut? _hcut
    have hinner := Text.size_trim_le inner
    have hright := Text.size_trim_le right
    omega
  · have hsize := size_cut? _hcut
    omega

end

end Bytes
end ReversePolish
