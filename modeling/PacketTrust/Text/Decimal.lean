/-! Decimal numerals of bounded integers, as variables and name components hold them. -/

namespace PacketTrust.Decimal

/-- The value of a numeral, or nothing when a character is no decimal digit. -/
def digits? (text : List Char) : Option Nat :=
  text.foldlM (fun n c => if c.isDigit then some (n * 10 + (c.toNat - 48)) else none) 0

/-- At least one digit, after at most one plus sign, with a value of at most `limit`. -/
def natural? (limit : Nat) (text : List Char) : Option Nat :=
  let body := match text with
    | '+' :: rest => rest
    | _ => text
  if body.isEmpty then none
  else (digits? body).filter (· ≤ limit)

/-- A number of 64 bits. -/
def word? (text : List Char) : Option UInt64 :=
  (natural? (UInt64.size - 1) text).map UInt64.ofNat

/-- At least `width` digits, zeros in front. -/
def padded (width n : Nat) : List Char :=
  let digits := Nat.toDigits 10 n
  List.replicate (width - digits.length) '0' ++ digits

end PacketTrust.Decimal
