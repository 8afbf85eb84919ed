import ReversePolish.Text
import ReversePolish.Binary64

/-! Integer literals: an optional sign and one or more ASCII digits. A literal of any length stands
for the binary64 number nearest to the integer it writes, and a minus sign is kept on zero. -/
namespace ReversePolish.Literal

def unsigned : Text → Text
  | '+' :: digits => digits
  | '-' :: digits => digits
  | digits => digits

def isLiteral (token : Text) : Bool :=
  !(unsigned token).isEmpty && (unsigned token).all Char.isDigit

def magnitude (digits : Text) : Nat :=
  digits.foldl (fun n c => 10 * n + (c.toNat - '0'.toNat)) 0

def value (token : Text) : Float :=
  Binary64.signed (token.head? == some '-') (Binary64.nearest (magnitude (unsigned token)) 1)

end ReversePolish.Literal
