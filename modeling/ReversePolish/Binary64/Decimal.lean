import ReversePolish.Text
import ReversePolish.Binary64

/-! Decimal texts of binary64 numbers. The digits are those of the coarsest decimal grid that has a
point which reads back as the number; of two such points the nearer is taken, and of two equally near
ones the upper. No exponent is ever written. -/
namespace ReversePolish.Binary64

/-- Whether `digits * 10 ^ exponent` is rounded to the number with these bits. -/
def readsBack (bits digits : Nat) (exponent : Int) : Bool :=
  nearest (digits * Nat.pow 10 exponent.toNat) (Nat.pow 10 (-exponent).toNat) == bits

def better? (num den : Nat) (serves : Nat → Bool) : Option Nat :=
  let low := num / den
  match serves low, serves (low + 1) with
  | true, true => some (if 2 * num < (2 * low + 1) * den then low else low + 1)
  | true, false => some low
  | false, true => some (low + 1)
  | false, false => none

def onGrid? (bits : Nat) (exponent : Int) : Option Nat :=
  better? (units bits * Nat.pow 10 (-exponent).toNat) (Nat.pow 10 exponent.toNat <<< 1074) fun digits =>
    readsBack bits digits exponent

/-- The digits and exponent on the first grid that has any, of those with exponents below `n - 1074`. -/
def coarsest (grid : Int → Option Nat) (finest : Nat) : Nat → Nat × Int
  | 0 => (finest, -1074)
  | n + 1 =>
    match grid (n - 1074) with
    | some digits => (digits, n - 1074)
    | none => coarsest grid finest n

/-- The search starts at a power of ten above the number: 30103 / 100000 is just over the decimal
logarithm of two, and 2 ^ 1073 has 324 digits. The finest grid has every finite number on it. -/
def shortest (bits : Nat) : Nat × Int :=
  coarsest (onGrid? bits) (units bits * Nat.pow 5 1074) ((units bits).log2 * 30103 / 100000 + 753)

/-- Digits and exponent written out in full, with a point only if there are decimal places. -/
def positional (digits : Nat) : Int → Text
  | .ofNat zeros => Nat.toDigits 10 digits ++ List.replicate zeros '0'
  | .negSucc n =>
    let places := n + 1
    let ds := Nat.toDigits 10 digits
    if places < ds.length then ds.take (ds.length - places) ++ ['.'] ++ ds.drop (ds.length - places)
    else ['0', '.'] ++ List.replicate (places - ds.length) '0' ++ ds

def magnitudeText (bits : Nat) : Text :=
  if bits = infinity then "inf".toList
  else if bits = 0 then ['0']
  else positional (shortest bits).1 (shortest bits).2

/-- The shortest decimal text that reads back as the number. Zero keeps its sign. -/
def text (x : Float) : Text :=
  let bits := x.toBits.toNat
  if infinity < bits % signBit then "NaN".toList
  else if signBit ≤ bits then '-' :: magnitudeText (bits % signBit)
  else magnitudeText (bits % signBit)

end ReversePolish.Binary64
