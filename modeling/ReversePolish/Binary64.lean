/-! Rounding to binary64 in exact arithmetic. A positive number of the format is a natural number of
units of 2^-1074, its least positive one; the rounded quotient in those units carries into the exponent
field by itself, so subnormal numbers and overflow need no case of their own. -/
namespace ReversePolish.Binary64

/-- The integer nearest to a quotient, the even one if two are equally near. -/
def nearestQuotient (num den : Nat) : Nat :=
  let low := num / den
  let rest := 2 * (num % den)
  if rest < den ∨ (rest = den ∧ low % 2 = 0) then low else low + 1

/-- The least significand of a normal number, and the least bit of the exponent field. -/
def hiddenBit : Nat := 0x10000000000000

def infinity : Nat := 0x7FF0000000000000

def signBit : Nat := 0x8000000000000000

/-- The bits of the number nearest to `num / den`, ties to the even significand. -/
def nearest (num den : Nat) : Nat :=
  let units := num <<< 1074
  let shift := (units / den).log2 - 52
  min infinity (shift * hiddenBit + nearestQuotient units (den <<< shift))

/-- How many units of 2^-1074 the bits of a finite positive number stand for. -/
def units (bits : Nat) : Nat :=
  let exponent := bits / hiddenBit
  let fraction := bits % hiddenBit
  if exponent = 0 then fraction else (hiddenBit + fraction) <<< (exponent - 1)

def signed (negative : Bool) (bits : Nat) : Float :=
  Float.ofBits (UInt64.ofNat (if negative then signBit + bits else bits))

end ReversePolish.Binary64
