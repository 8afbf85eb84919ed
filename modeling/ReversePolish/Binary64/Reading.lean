import ReversePolish.Literal

/-! Reading the decimal text of a binary64 number. Besides the names of the infinities and of the number that is
none, a text is read if it has a digit on one side of its point; the point, the sign and the power of ten may be
missing. It stands for the number nearest to the one it writes, however many digits it has. -/
namespace ReversePolish.Binary64

def notANumber : Nat := 0x7FF8000000000000

/-- The power of ten at the end of a numeral, which is zero if none is written. -/
def exponent? : Text → Option Int
  | [] => some 0
  | c :: s =>
    if (c == 'e' || c == 'E') && Literal.isLiteral s then
      let power := Literal.magnitude (Literal.unsigned s)
      some (if s.head? == some '-' then -power else power)
    else none

def decimalPlaces : Text → Text × Text
  | '.' :: s => (s.takeWhile Char.isDigit, s.dropWhile Char.isDigit)
  | s => ([], s)

def numeral? (s : Text) : Option (Nat × Int) :=
  let whole := s.takeWhile Char.isDigit
  let (places, tail) := decimalPlaces (s.dropWhile Char.isDigit)
  if whole.isEmpty && places.isEmpty then none
  else (exponent? tail).map fun power => (Literal.magnitude (whole ++ places), power - places.length)

/-- The number that a text writes. Upper and lower case are the same. -/
def ofText? (s : Text) : Option Float :=
  let negative := s.head? == some '-'
  let body := Literal.unsigned s
  let name := body.map Char.toLower
  if name = "inf".toList ∨ name = "infinity".toList then some (signed negative infinity)
  else if name = "nan".toList then some (signed negative notANumber)
  else (numeral? body).map fun (digits, power) =>
    signed negative (nearest (digits * Nat.pow 10 power.toNat) (Nat.pow 10 (-power).toNat))

end ReversePolish.Binary64
