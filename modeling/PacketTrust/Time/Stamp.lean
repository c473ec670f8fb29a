import PacketTrust.Text.Blank
import PacketTrust.Text.Decimal
import PacketTrust.Time.Instant

/-! The written form of a moment in a validity period: year, month and day, a capital T, then hour,
minute and second, as in 20240101T123015. Reading allows blanks before each number and fewer digits
than writing gives. -/

namespace PacketTrust.Stamp

inductive Problem where
  | ended
  | unexpected
  | outOfRange
  | leftover
deriving DecidableEq, Repr

def Problem.message : Problem → String
  | ended => "premature end of input"
  | unexpected => "input contains invalid characters"
  | outOfRange => "input is out of range"
  | leftover => "trailing input"

/-- Reads a number of at least one and at most `width` digits. -/
def digits (width limit : Nat) (text : List Char) : Except Problem (Nat × List Char) :=
  match text with
  | [] => .error .ended
  | c :: _ =>
    if c.isDigit then
      let number := (text.take width).takeWhile Char.isDigit
      match Decimal.digits? number with
      | some n => if n ≤ limit then .ok (n, text.drop number.length) else .error .outOfRange
      | none => .error .unexpected
    else .error .unexpected

/-- Reads a year: up to four digits, or any number of them behind a sign. -/
def year (text : List Char) : Except Problem (Int × List Char) :=
  match Text.trimStart text with
  | '-' :: rest => do
    let (n, rest) ← digits rest.length 0x80000000 rest
    pure (-n, rest)
  | '+' :: rest => do
    let (n, rest) ← digits rest.length 0x7fffffff rest
    pure (n, rest)
  | rest => do
    let (n, rest) ← digits 4 9999 rest
    pure (n, rest)

/-- Reads a number of one or two digits between two bounds. -/
def field (least greatest : Nat) (text : List Char) : Except Problem (Nat × List Char) := do
  let (n, rest) ← digits 2 greatest (Text.trimStart text)
  if n < least then throw .outOfRange
  pure (n, rest)

/-- Reads the T between date and time. -/
def separator : List Char → Except Problem (List Char)
  | [] => .error .ended
  | 'T' :: rest => .ok rest
  | _ => .error .unexpected

/-- The moment of a date and a time of day. Second 60 is the leap second after second 59. -/
def moment (date : Calendar.Date) (hour minute second : Nat) : Instant :=
  let start := date.toDay * 86400 + hour * 3600 + minute * 60
  if second = 60 then ⟨start + 59, 1000000000⟩ else ⟨start + second, 0⟩

def parse (text : List Char) : Except Problem Instant := do
  let (y, text) ← year text
  let (m, text) ← field 1 12 text
  let (d, text) ← field 1 31 text
  let text ← separator text
  let (hour, text) ← field 0 23 text
  let (minute, text) ← field 0 59 text
  let (second, text) ← field 0 60 text
  if !text.isEmpty then throw .leftover
  let date : Calendar.Date := ⟨y, m, d⟩
  if date.Valid then pure (moment date hour minute second) else throw .outOfRange

/-- Four digits for the years 0 to 9999, else a sign and at least four digits. -/
def renderYear (year : Int) : List Char :=
  if 0 ≤ year ∧ year ≤ 9999 then Decimal.padded 4 year.toNat
  else (if year < 0 then '-' else '+') :: Decimal.padded 4 year.natAbs

def render (t : Instant) : List Char :=
  let date := Calendar.Date.ofDay (t.second / 86400)
  let time := (t.second % 86400).toNat
  renderYear date.year ++ Decimal.padded 2 date.month ++ Decimal.padded 2 date.day ++ ['T'] ++
    Decimal.padded 2 (time / 3600) ++ Decimal.padded 2 (time / 60 % 60) ++
    Decimal.padded 2 (time % 60 + t.nano / 1000000000)

end PacketTrust.Stamp
