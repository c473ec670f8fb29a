import PacketTrust.Bytes.Hex
import PacketTrust.Name.Basic
import PacketTrust.Text.Blank
import PacketTrust.Text.Decimal
import PacketTrust.Text.Segments
import PacketTrust.Text.Utf8

/-! Names as text. Components stand behind slashes; a type other than the generic one is written
before an equals sign; octets outside a small set are written as percent escapes; and a value of
periods alone gains three periods, so that it is never empty or a step in a path. -/

namespace PacketTrust

inductive UriError where
  | escape (text : String)
  | component (text : String)
deriving DecidableEq, Repr

def UriError.message : UriError → String
  | escape text => s!"Invalid percent-encoding in `{text}`"
  | component text => s!"Illegal URI component `{text}`"

namespace Component

def period : UInt8 := 0x2e

/-- Octets that stand for themselves: letters, digits and five marks. -/
def isPlain (b : UInt8) : Bool :=
  let c := Char.ofNat b.toNat
  b < 128 && (c.isAlphanum || c == '+' || c == '-' || c == '.' || c == '_' || c == '~')

def escapeOctet (b : UInt8) : List Char :=
  if isPlain b then [Char.ofNat b.toNat]
  else ['%', Hex.upperDigit (b.toNat / 16), Hex.upperDigit (b.toNat % 16)]

def escape (value : Bytes) : List Char :=
  if value.all (· == period) then List.replicate (value.length + 3) '.'
  else value.flatMap escapeOctet

/-- The octet that two characters behind a percent sign stand for; the first may be a plus sign. -/
def escaped? (hi lo : Char) : Option UInt8 := do
  let l ← Hex.value? lo
  if hi = '+' then pure (UInt8.ofNat l)
  else pure (UInt8.ofNat (16 * (← Hex.value? hi) + l))

/-- The octets of a text with escapes. -/
def octets? : List Char → Option Bytes
  | [] => some []
  | '%' :: hi :: lo :: rest => do
    let b ← escaped? hi lo
    (octets? rest).map (b :: ·)
  | '%' :: _ => none
  | c :: rest => (octets? rest).map (String.utf8EncodeChar c ++ ·)

/-- Undoes `escape`. One or two periods alone are refused. -/
def unescape (text : List Char) : Except UriError Bytes :=
  match octets? text with
  | none => .error (.escape (String.ofList text))
  | some value =>
    if !value.isEmpty && value.all (· == period) then
      if value.length < 3 then .error (.component (String.ofList text))
      else .ok (value.take (value.length - 3))
    else .ok value

def digestMark : List Char := "sha256digest=".toList
def versionMark : List Char := "v=".toList

/-- A component of any type, as a number, an equals sign and the escaped value. -/
def typedChars (c : Component) : List Char :=
  Nat.toDigits 10 c.type.toNat ++ '=' :: escape c.value

def toChars (c : Component) : List Char :=
  if c.type = Tlv.Types.generic then escape c.value
  else if c.type = Tlv.Types.implicitDigest then digestMark ++ Hex.encode c.value
  else if c.type = Tlv.Types.version then
    match c.number with
    | .ok n => versionMark ++ Nat.toDigits 10 n.toNat
    | .error _ => c.typedChars
  else c.typedChars

/-- Splits at the first equals sign. -/
def splitType? (text : List Char) : Option (List Char × List Char) :=
  match text.dropWhile (· != '=') with
  | [] => none
  | _ :: rest => some (text.takeWhile (· != '='), rest)

/-- Reads what stands behind a mark at the start of a text. -/
def behind? (mark text : List Char) : Option (List Char) :=
  if mark.isPrefixOf text then some (text.drop mark.length) else none

/-- The type that a text names before an equals sign, and what stands behind it. -/
def typed? (text : List Char) : Option (UInt64 × List Char) := do
  let (type, rest) ← splitType? text
  pure (← Decimal.word? type, rest)

def ofChars (text : List Char) : Except UriError Component :=
  let illegal := UriError.component (String.ofList text)
  match behind? digestMark text, behind? versionMark text, typed? text with
  | some digits, _, _ =>
    match Hex.decode? digits with
    | some digest => if digest.length = 32 then .ok (implicitDigest digest) else .error illegal
    | none => .error illegal
  | _, some digits, _ =>
    match Decimal.word? digits with
    | some n => .ok (version n)
    | none => .error illegal
  | _, _, some (type, rest) =>
    if type = 0 ∨ type > 0xffff then .error illegal
    else do pure ⟨type, ← unescape rest⟩
  | _, _, none => do pure (generic (← unescape text))

def uri (c : Component) : String := String.ofList c.toChars

end Component

namespace Name

def toChars (n : Name) : List Char :=
  if n.components.isEmpty then ['/']
  else n.components.flatMap fun c => '/' :: c.toChars

def uri (n : Name) : String := String.ofList n.toChars

def schemeMark : List Char := "ndn:".toList

/-- Reads a name between blanks, with or without its scheme; empty segments count for nothing. -/
def ofChars (text : List Char) : Except UriError Name := do
  let text := Text.trim text
  let path := (Component.behind? schemeMark text).getD text
  pure ⟨← ((Text.segments path).filter (!·.isEmpty)).mapM Component.ofChars⟩

def ofUri (text : String) : Except UriError Name := ofChars text.toList

end Name

instance : ToString Name := ⟨Name.uri⟩

end PacketTrust
