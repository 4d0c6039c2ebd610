/-!
# Integer literals

A literal is an optional sign and at least one decimal digit, with any number of leading zeros.
Literals of a bounded type have to lie within its bounds.
-/

namespace Chromatic.Text

/-- The value of a text of one or more digits. -/
def natural? (cs : List Char) : Option Nat :=
  if cs ≠ [] ∧ cs.all Char.isDigit then some (Nat.ofDigitChars 10 cs 0) else none

/-- The value of digits behind an optional plus or minus sign. -/
def integer? : List Char → Option Int
  | '+' :: cs => (natural? cs).map Int.ofNat
  | '-' :: cs => (natural? cs).map fun n => -Int.ofNat n
  | cs => (natural? cs).map Int.ofNat

/-- The integers of 64 bits, one of them the sign. -/
def inSignedRange (k : Int) : Bool := -9223372036854775808 ≤ k && k < 9223372036854775808

/-- The value of a signed literal of 64 bits. -/
def signed? (cs : List Char) : Option Int := (integer? cs).filter inSignedRange

/-- The value of an unsigned literal of 64 bits; a plus sign is allowed, a minus sign is not. -/
def unsigned? (cs : List Char) : Option Nat :=
  let digits := match cs with
    | '+' :: rest => rest
    | _ => cs
  (natural? digits).filter fun n => n < 18446744073709551616

end Chromatic.Text
