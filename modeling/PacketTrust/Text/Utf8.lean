import PacketTrust.Bytes

/-! UTF-8: characters as octets. -/

namespace PacketTrust.Utf8

/-- The octets of a text. -/
def encode (text : List Char) : Bytes :=
  text.flatMap String.utf8EncodeChar

/-- The payload of a continuation octet. -/
def continuation? (b : UInt8) : Option Nat :=
  if 0x80 ≤ b ∧ b < 0xc0 then some (b.toNat - 0x80) else none

/-- A code point that is no surrogate, lies below the end of Unicode and needs its length. -/
def scalar? (least code : Nat) : Option Char :=
  if least ≤ code ∧ code.isValidChar then some (Char.ofNat code) else none

/-- The text that the octets spell; overlong forms, surrogates and stray octets are refused. -/
def decode? : Bytes → Option (List Char)
  | [] => some []
  | a :: rest =>
    if a < 0x80 then (decode? rest).map (Char.ofNat a.toNat :: ·)
    else if a < 0xc0 then none
    else if a < 0xe0 then
      match rest with
      | b :: rest => do
        let b ← continuation? b
        let char ← scalar? 0x80 ((a.toNat - 0xc0) * 64 + b)
        (decode? rest).map (char :: ·)
      | _ => none
    else if a < 0xf0 then
      match rest with
      | b :: c :: rest => do
        let b ← continuation? b
        let c ← continuation? c
        let char ← scalar? 0x800 (((a.toNat - 0xe0) * 64 + b) * 64 + c)
        (decode? rest).map (char :: ·)
      | _ => none
    else if a < 0xf8 then
      match rest with
      | b :: c :: d :: rest => do
        let b ← continuation? b
        let c ← continuation? c
        let d ← continuation? d
        let char ← scalar? 0x10000 ((((a.toNat - 0xf0) * 64 + b) * 64 + c) * 64 + d)
        (decode? rest).map (char :: ·)
      | _ => none
    else none

end PacketTrust.Utf8
