import Mathlib.Data.List.TakeWhile
import PacketTrust.Proofs.Action
import PacketTrust.Proofs.Text.Numeral
import PacketTrust.Proofs.Time.Calendar
import PacketTrust.Time.Stamp

/-! Reading the written form of a moment. Each number is read from as many digits as were written
for it. Main statements: whole seconds in years of four digits are read back as they were written,
leap seconds among them; no other year is, for the digits behind its sign run on into the month. -/

namespace PacketTrust

namespace Instant

def year (t : Instant) : Int := (Calendar.Date.ofDay (t.second / 86400)).year

/-- The beginning of a second, or of the leap second behind the last second of a minute. -/
def WholeSecond (t : Instant) : Prop := t.nano = 0 ∨ t.nano = 1000000000 ∧ t.second % 60 = 59

/-- Written in full, a moment has a whole second and a year of four digits. -/
structure Printable (t : Instant) : Prop where
  whole : t.WholeSecond
  year : 0 ≤ t.year ∧ t.year ≤ 9999

end Instant

namespace Stamp

open Decimal

variable {width limit n : Nat} {rest : List Char}

theorem digits_padded (hw : 0 < width) (hn : n < 10 ^ width) (hl : n ≤ limit) (rest : List Char) :
    digits width limit (padded width n ++ rest) = .ok (n, rest) := by
  obtain ⟨c, more, hpadded, hc⟩ := exists_padded width n
  have hlength : (padded width n).length = width := length_padded hw hn
  have hnumber : ((padded width n ++ rest).take width).takeWhile Char.isDigit = padded width n := by
    rw [List.take_left' hlength]
    exact List.takeWhile_eq_self_iff.2 fun c hc => isDigit_of_mem_padded hc
  have htext : padded width n ++ rest = c :: (more ++ rest) := by rw [hpadded, List.cons_append]
  rw [digits.eq_def, htext]
  dsimp only
  rw [if_pos hc, ← htext, hnumber, digits?_padded]
  dsimp only
  rw [if_pos hl, List.drop_left]

/-- A digit is no blank, so nothing is skipped before a numeral. -/
theorem trimStart_padded (width n : Nat) (rest : List Char) :
    Text.trimStart (padded width n ++ rest) = padded width n ++ rest := by
  obtain ⟨c, more, hpadded, hc⟩ := exists_padded width n
  rw [hpadded, List.cons_append, Text.trimStart,
    List.dropWhile_cons_of_neg (by rw [Text.isBlank_of_isDigit hc]; exact Bool.false_ne_true)]

theorem year_padded (hn : n ≤ 9999) (rest : List Char) :
    year (padded 4 n ++ rest) = .ok (n, rest) := by
  obtain ⟨c, more, hpadded, hc⟩ := exists_padded 4 n
  have hread : digits 4 9999 (padded 4 n ++ rest) = .ok (n, rest) :=
    digits_padded (by omega) (by omega) hn rest
  have hsign : ∀ sign ∈ ['-', '+'], ∀ digits, padded 4 n ++ rest ≠ sign :: digits := by
    rintro sign hsign digits h
    rw [hpadded, List.cons_append] at h
    obtain ⟨rfl, -⟩ := List.cons.inj h
    revert hc
    simp only [List.mem_cons, List.not_mem_nil, or_false] at hsign
    rcases hsign with rfl | rfl <;> decide
  rw [year, trimStart_padded]
  split
  · rename_i h
    exact absurd h (hsign _ (by simp) _)
  · rename_i h
    exact absurd h (hsign _ (by simp) _)
  · rw [hread]
    rfl

theorem field_padded {least greatest : Nat} (hleast : least ≤ n) (hgreatest : n ≤ greatest)
    (hn : n < 100) (rest : List Char) :
    field least greatest (padded 2 n ++ rest) = .ok (n, rest) := by
  have hread : digits 2 greatest (padded 2 n ++ rest) = .ok (n, rest) :=
    digits_padded (by omega) (by omega) hgreatest rest
  rw [field, trimStart_padded, hread]
  exact if_neg (by omega)

def numerals (y month day hour minute second : Nat) : List Char :=
  padded 4 y ++ padded 2 month ++ padded 2 day ++ ['T'] ++ padded 2 hour ++ padded 2 minute ++
    padded 2 second

/-- Each number has its place: the date exists, and the time of day does, leap seconds included. -/
structure Fits (y month day hour minute second : Nat) : Prop where
  year : y ≤ 9999
  date : (⟨y, month, day⟩ : Calendar.Date).Valid
  hour : hour ≤ 23
  minute : minute ≤ 59
  second : second ≤ 60

section

variable {y month day hour minute second : Nat}

theorem Fits.month_bounds (h : Fits y month day hour minute second) : 1 ≤ month ∧ month ≤ 12 :=
  ⟨h.date.2.2.1, h.date.2.2.2.1⟩

theorem Fits.day_bounds (h : Fits y month day hour minute second) : 1 ≤ day ∧ day ≤ 31 :=
  ⟨h.date.2.2.2.2.1, Nat.le_trans h.date.2.2.2.2.2 (Calendar.daysInMonth_le _ _)⟩

/-- Date and time of day are read back from the numerals that were written for them. -/
theorem parse_numerals (h : Fits y month day hour minute second) :
    parse (numerals y month day hour minute second) =
      .ok (moment ⟨y, month, day⟩ hour minute second) := by
  obtain ⟨hmonth, hday⟩ := And.intro h.month_bounds h.day_bounds
  obtain ⟨hy, hdate, hhour, hminute, hsecond⟩ := h
  have hlast : field 0 60 (padded 2 second) = .ok (second, []) := by
    have hlast := field_padded (Nat.zero_le second) hsecond (by omega) []
    rwa [List.append_nil] at hlast
  simp only [numerals, List.append_assoc, parse, year_padded hy,
    field_padded hmonth.1 hmonth.2 (by omega), field_padded hday.1 hday.2 (by omega),
    List.cons_append, List.nil_append, separator, field_padded (Nat.zero_le hour) hhour (by omega),
    field_padded (Nat.zero_le minute) hminute (by omega), hlast, bind, Except.bind]
  exact if_pos hdate

theorem length_numerals (h : Fits y month day hour minute second) :
    (numerals y month day hour minute second).length = 15 := by
  obtain ⟨hmonth, hday⟩ := And.intro h.month_bounds h.day_bounds
  obtain ⟨hy, -, hhour, hminute, hsecond⟩ := h
  have hfour : (padded 4 y).length = 4 := length_padded (by omega) (by omega)
  have htwo : ∀ n < 100, (padded 2 n).length = 2 := fun n hn => length_padded (by omega) (by omega)
  simp only [numerals, List.length_append, hfour, htwo month (by omega), htwo day (by omega),
    htwo hour (by omega), htwo minute (by omega), htwo second (by omega), List.length_singleton]

end

/-- The time of day that is written for a whole second is that of its moment. -/
theorem moment_ofDay {t : Instant} (h : t.WholeSecond) :
    moment (Calendar.Date.ofDay (t.second / 86400)) ((t.second % 86400).toNat / 3600)
      ((t.second % 86400).toNat / 60 % 60)
        ((t.second % 86400).toNat % 60 + t.nano / 1000000000) = t := by
  obtain ⟨second, nano⟩ := t
  rw [moment, Calendar.toDay_ofDay]
  dsimp only
  rcases h with hnano | ⟨hnano, hlast⟩
  · dsimp only at hnano
    rw [if_neg (by omega), Instant.mk.injEq]
    omega
  · dsimp only at hnano hlast
    rw [if_pos (by omega), Instant.mk.injEq]
    omega

/-- What is written for a moment in full are the numerals of its date and time of day. -/
theorem exists_numerals {t : Instant} (h : t.Printable) : ∃ y month day hour minute second,
    Fits y month day hour minute second ∧ render t = numerals y month day hour minute second ∧
      moment ⟨y, month, day⟩ hour minute second = t := by
  obtain ⟨hwhole, hyear⟩ := h
  have hmoment := moment_ofDay hwhole
  rw [Instant.year] at hyear
  rw [render]
  obtain ⟨date, hdate⟩ : ∃ date, date = Calendar.Date.ofDay (t.second / 86400) := ⟨_, rfl⟩
  rw [← hdate] at hmoment hyear ⊢
  have hvalid : date.Valid := by
    rw [hdate]
    apply Calendar.valid_ofDay
    all_goals
      rw [← hdate]
      simp only [Calendar.firstYear, Calendar.lastYear]
      omega
  obtain ⟨year, month, day⟩ := date
  dsimp only at hyear hmoment ⊢
  obtain ⟨y, rfl⟩ := Int.eq_ofNat_of_zero_le hyear.1
  have hsecond : (t.second % 86400).toNat % 60 + t.nano / 1000000000 ≤ 60 := by
    rcases hwhole with hnano | ⟨hnano, -⟩ <;> omega
  refine ⟨y, month, day, _, _, _, ⟨by omega, hvalid, ?_, ?_, hsecond⟩, ?_, hmoment⟩
  · omega
  · omega
  · rw [renderYear, if_pos hyear, Int.toNat_natCast]
    rfl

theorem parse_render {t : Instant} (h : t.Printable) : parse (render t) = .ok t := by
  obtain ⟨y, month, day, hour, minute, second, hfits, htext, hmoment⟩ := exists_numerals h
  rw [htext, parse_numerals hfits, hmoment]

theorem length_render {t : Instant} (h : t.Printable) : (render t).length = 15 := by
  obtain ⟨y, month, day, hour, minute, second, hfits, htext, -⟩ := exists_numerals h
  rw [htext, length_numerals hfits]

/-- Of any moment the second is written, so that another moment, which is read back, has the same
written form. A leap second that is not behind the last second of a minute is written as the next
second. -/
theorem exists_printable {t : Instant} (hnano : t.nano < 2000000000)
    (hyear : 0 ≤ t.year ∧ t.year ≤ 9999) :
    ∃ t' : Instant, t'.Printable ∧ render t' = render t := by
  obtain ⟨second, nano⟩ := t
  dsimp only [Instant.year] at hnano hyear
  by_cases hplain : nano < 1000000000
  · refine ⟨⟨second, 0⟩, ⟨.inl rfl, hyear⟩, ?_⟩
    have hzero : nano / 1000000000 = 0 := by omega
    simp only [render, hzero, Nat.zero_div]
  have hone : nano / 1000000000 = 1 := by omega
  by_cases hlast : second % 60 = 59
  · refine ⟨⟨second, 1000000000⟩, ⟨.inr ⟨rfl, hlast⟩, hyear⟩, ?_⟩
    simp only [render, hone]
  · have hday : (second + 1) / 86400 = second / 86400 := by omega
    obtain ⟨time, htime⟩ : ∃ time, time = (second % 86400).toNat := ⟨_, rfl⟩
    have hnext : ((second + 1) % 86400).toNat = time + 1 := by omega
    have hhour : (time + 1) / 3600 = time / 3600 := by omega
    have hminute : (time + 1) / 60 % 60 = time / 60 % 60 := by omega
    have hsecond : (time + 1) % 60 + 0 / 1000000000 = time % 60 + 1 := by omega
    refine ⟨⟨second + 1, 0⟩, ⟨.inl rfl, ?_⟩, ?_⟩
    · dsimp only [Instant.year]
      rwa [hday]
    · simp only [render, hday, hnext, hone, ← htime, hhour, hminute, hsecond]

theorem plain_render {t : Instant} {c : Char} (h : c ∈ render t) : c.toNat < 0x80 := by
  have hdigit : ∀ width n, c ∈ padded width n → c.toNat < 0x80 := by
    intro width n hc
    have := Text.toNat_of_isDigit (isDigit_of_mem_padded hc)
    omega
  have hyear : ∀ year, c ∈ renderYear year → c.toNat < 0x80 := by
    intro year hc
    rw [renderYear] at hc
    split at hc
    · exact hdigit _ _ hc
    · rcases List.mem_cons.1 hc with rfl | hc
      · split <;> decide
      · exact hdigit _ _ hc
  rw [render] at h
  simp only [List.mem_append, List.mem_singleton] at h
  rcases h with (((((h | h) | h) | rfl) | h) | h) | h
  case inl.inl.inl.inr => decide
  case inl.inl.inl.inl.inl.inl => exact hyear _ h
  all_goals exact hdigit _ _ h

theorem decode?_encode_render (t : Instant) :
    Utf8.decode? (Utf8.encode (render t)) = some (render t) :=
  Utf8.decode?_encode fun _ hc => plain_render hc

/-- Whatever text a moment was read from, it is a whole second. -/
theorem wholeSecond_of_parse {text : List Char} {t : Instant} (h : parse text = .ok t) :
    t.WholeSecond := by
  have hmoment : ∀ date hour minute second, (moment date hour minute second).WholeSecond := by
    intro date hour minute second
    rw [moment]
    split
    · right
      constructor
      · rfl
      · change (_ + 59) % 60 = (59 : Int)
        omega
    · exact .inl rfl
  obtain ⟨⟨y, _⟩, -, h⟩ := ok_of_bind h
  obtain ⟨⟨month, _⟩, -, h⟩ := ok_of_bind h
  obtain ⟨⟨day, _⟩, -, h⟩ := ok_of_bind h
  obtain ⟨_, -, h⟩ := ok_of_bind h
  obtain ⟨⟨hour, _⟩, -, h⟩ := ok_of_bind h
  obtain ⟨⟨minute, _⟩, -, h⟩ := ok_of_bind h
  obtain ⟨⟨second, rest⟩, -, h⟩ := ok_of_bind h
  dsimp only at h
  split at h
  · cases h
  · change (if _ then _ else _) = Except.ok t at h
    split at h
    · cases h
      exact hmoment _ _ _ _
    · cases h

section

variable {sign : Char} {numeral more : List Char}

theorem digits_all (hne : numeral ≠ []) (hdigits : ∀ c ∈ numeral, c.isDigit) :
    digits (numeral ++ 'T' :: more).length limit (numeral ++ 'T' :: more) =
      if Nat.ofDigitChars 10 numeral 0 ≤ limit then .ok (Nat.ofDigitChars 10 numeral 0, 'T' :: more)
      else .error .outOfRange := by
  obtain ⟨c, text, hnumeral⟩ := List.exists_cons_of_ne_nil hne
  have hc : c.isDigit := hdigits c (hnumeral ▸ List.mem_cons_self)
  have hnumber : ((numeral ++ 'T' :: more).take (numeral ++ 'T' :: more).length).takeWhile
      Char.isDigit = numeral := by
    rw [List.take_length, List.takeWhile_append_of_pos hdigits,
      List.takeWhile_cons_of_neg (by decide), List.append_nil]
  have htext : numeral ++ 'T' :: more = c :: (text ++ 'T' :: more) := by
    rw [hnumeral, List.cons_append]
  rw [digits.eq_def, htext]
  dsimp only
  rw [if_pos hc, ← htext, hnumber, digits?_of_isDigit hdigits]
  dsimp only
  rw [List.drop_left]

/-- Behind a sign all digits are read as the year, and nothing is left for the month. -/
theorem parse_signed (hsign : sign = '-' ∨ sign = '+') (hne : numeral ≠ [])
    (hdigits : ∀ c ∈ numeral, c.isDigit) :
    ∃ problem, parse (sign :: (numeral ++ 'T' :: more)) = .error problem := by
  have hmonth : field 1 12 ('T' :: more) = .error .unexpected := rfl
  have hyear : ∃ (limit : Nat) (value : Nat → Int), year (sign :: (numeral ++ 'T' :: more)) =
      digits (numeral ++ 'T' :: more).length limit (numeral ++ 'T' :: more) >>=
        fun p => pure (value p.1, p.2) := by
    rcases hsign with rfl | rfl
    · exact ⟨_, fun n => -n, rfl⟩
    · exact ⟨_, fun n => n, rfl⟩
  obtain ⟨limit, value, hyear⟩ := hyear
  rw [digits_all hne hdigits] at hyear
  split at hyear
  · refine ⟨.unexpected, ?_⟩
    rw [parse, hyear]
    simp only [bind, Except.bind, pure, Except.pure, hmonth]
  · refine ⟨.outOfRange, ?_⟩
    rw [parse, hyear]
    rfl

end

theorem exists_sign {t : Instant} (h : ¬ (0 ≤ t.year ∧ t.year ≤ 9999)) : ∃ sign numeral more,
    (sign = '-' ∨ sign = '+') ∧ numeral ≠ [] ∧ (∀ c ∈ numeral, c.isDigit) ∧
      render t = sign :: (numeral ++ 'T' :: more) := by
  rw [Instant.year] at h
  obtain ⟨date, hdate⟩ : ∃ date, date = Calendar.Date.ofDay (t.second / 86400) := ⟨_, rfl⟩
  rw [render, ← hdate, renderYear]
  rw [← hdate] at h
  rw [if_neg h]
  obtain ⟨time, htime⟩ : ∃ time, time = (t.second % 86400).toNat := ⟨_, rfl⟩
  rw [← htime]
  refine ⟨if date.year < 0 then '-' else '+',
    padded 4 date.year.natAbs ++ padded 2 date.month ++ padded 2 date.day,
    padded 2 (time / 3600) ++ padded 2 (time / 60 % 60) ++
      padded 2 (time % 60 + t.nano / 1000000000),
    ?_, ?_, ?_, ?_⟩
  rotate_right
  · simp only [List.append_assoc, List.cons_append, List.nil_append]
  · split
    · exact .inl rfl
    · exact .inr rfl
  · obtain ⟨c, rest, hpadded, -⟩ := exists_padded 4 date.year.natAbs
    rw [hpadded]
    exact List.cons_ne_nil _ _
  · intro c hc
    simp only [List.mem_append] at hc
    rcases hc with (hc | hc) | hc <;> exact isDigit_of_mem_padded hc

/-- A moment whose year has no four digits is not read back. -/
theorem parse_render_of_far {t : Instant} (h : ¬ (0 ≤ t.year ∧ t.year ≤ 9999)) :
    ∃ problem, parse (render t) = .error problem := by
  obtain ⟨sign, numeral, more, hsign, hne, hdigits, hrender⟩ := exists_sign h
  rw [hrender]
  exact parse_signed hsign hne hdigits

end Stamp

end PacketTrust
