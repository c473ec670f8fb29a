import PacketTrust.Time.Calendar

/-! Day numbers and dates. Years begin in March here, as in the definitions, so a year has its leap
day at its end. Main statement: the date of a day number exists in the calendar, and its day number
is that one. -/

namespace PacketTrust.Calendar

/-- The year within its cycle of 400 that is found for a day has begun by then. It has 365 days, and
one more if February then falls in a leap year. -/
theorem yearOfCycle_bounds {rest y : Int} (h0 : 0 ≤ rest) (h1 : rest < 146097)
    (hy : y = (rest - rest / 1460 + rest / 36524 - rest / 146096) / 365) :
    0 ≤ y ∧ y ≤ 399 ∧ 365 * y + y / 4 - y / 100 ≤ rest ∧
      (rest ≤ 365 * y + y / 4 - y / 100 + 364 ∨
        rest = 365 * y + y / 4 - y / 100 + 365 ∧ (y + 1) % 4 = 0 ∧
          ((y + 1) % 100 ≠ 0 ∨ (y + 1) % 400 = 0)) := by
  by_cases hlast : rest = 146096
  · have hy : y = 399 := by rw [hy, hlast]; rfl
    omega
  have hcycle : rest / 146096 = 0 := by omega
  have hnonneg : 0 ≤ y := by omega
  have hcentury : y / 100 = rest / 36524 := by
    have hd : rest / 36524 = 0 ∨ rest / 36524 = 1 ∨ rest / 36524 = 2 ∨ rest / 36524 = 3 := by omega
    rcases hd with hd | hd | hd | hd <;> rw [hd, hcycle] at hy <;> rw [hd] <;> omega
  have hle : y ≤ 399 := by omega
  rw [hcycle, ← hcentury] at hy
  refine ⟨hnonneg, hle, ?_⟩
  have hfour : rest / 1460 = y / 4 ∨ rest / 1460 = y / 4 + 1 := by omega
  rcases hfour with hfour | hfour
  · rw [hfour] at hy
    omega
  · -- The last days of a fourth year: they lie past four times 365 days already.
    rw [hfour] at hy
    have hfourth : y % 4 = 3 := by omega
    have hdays : rest ≤ 365 * y + y / 4 - y / 100 + 365 := by omega
    by_cases hend : y % 100 = 99 <;> omega

theorem isLeap_iff (year : Int) :
    isLeap year = true ↔ year % 4 = 0 ∧ (year % 100 ≠ 0 ∨ year % 400 = 0) := by
  simp [isLeap]

/-- The parts that a day number is taken into: cycles of 400 years, years, and days of the year. -/
theorem exists_ofDay (number : Int) : ∃ cycle y day month : Int,
    number + 719468 = 146097 * cycle + (365 * y + y / 4 - y / 100) + day ∧
    (0 ≤ y ∧ y ≤ 399) ∧
    (0 ≤ day ∧ (day ≤ 364 ∨ day = 365 ∧ isLeap (y + 400 * cycle + 1))) ∧
    month = (5 * day + 2) / 153 ∧
    Date.ofDay number =
      { year := y + 400 * cycle + (if month < 10 then 0 else 1)
        month := (if month < 10 then month + 3 else month - 9).toNat
        day := (day - (153 * month + 2) / 5 + 1).toNat } := by
  obtain ⟨cycle, hcycle⟩ : ∃ cycle, cycle = (number + 719468) / 146097 := ⟨_, rfl⟩
  obtain ⟨rest, hrest⟩ : ∃ rest, rest = (number + 719468) % 146097 := ⟨_, rfl⟩
  obtain ⟨y, hy⟩ : ∃ y, y = (rest - rest / 1460 + rest / 36524 - rest / 146096) / 365 := ⟨_, rfl⟩
  obtain ⟨hnonneg, hle, hbegun, hends⟩ := yearOfCycle_bounds (by omega) (by omega) hy
  refine ⟨cycle, y, rest - (365 * y + y / 4 - y / 100), _, by omega, ⟨hnonneg, hle⟩,
    ⟨by omega, ?_⟩, rfl, ?_⟩
  · rcases hends with hends | ⟨hends, hleap⟩
    · exact .inl (by omega)
    · refine .inr ⟨by omega, ?_⟩
      rw [isLeap_iff]
      omega
  · rw [Date.ofDay, ← hcycle, ← hrest, ← hy]

/-- The months of a year that begins in March, by their numbers from 0: each has the days from its
own first to the first of the next, February at most 29. -/
theorem month_bounds {day month : Int} (h0 : 0 ≤ day) (h1 : day ≤ 365)
    (hm : month = (5 * day + 2) / 153) :
    0 ≤ month ∧ month ≤ 11 ∧ (153 * month + 2) / 5 ≤ day ∧ day < (153 * (month + 1) + 2) / 5 := by
  omega

theorem toDay_ofDay (number : Int) : (Date.ofDay number).toDay = number := by
  obtain ⟨cycle, y, day, month, hnumber, hy, hday, hmonth, hdate⟩ := exists_ofDay number
  obtain ⟨hm0, hm11, hfirst, -⟩ := month_bounds hday.1 (by omega) hmonth
  have hfour : (y + 400 * cycle) / 4 = y / 4 + 100 * cycle := by omega
  have hcentury : (y + 400 * cycle) / 100 = y / 100 + 4 * cycle := by omega
  have hcycle : (y + 400 * cycle) / 400 = cycle := by omega
  rw [hdate, Date.toDay]
  dsimp only
  by_cases hspring : month < 10
  · have hmarch : (((month + 3).toNat : Int) + 9) % 12 = month := by omega
    rw [if_pos hspring, if_pos hspring, if_neg (by omega), hmarch, Int.add_zero, hfour,
      hcentury, hcycle]
    omega
  · have hmarch : (((month - 9).toNat : Int) + 9) % 12 = month := by omega
    rw [if_neg hspring, if_neg hspring, if_pos (by omega), hmarch, Int.add_sub_cancel, hfour,
      hcentury, hcycle]
    omega

theorem valid_ofDay {number : Int} (hfirst : firstYear ≤ (Date.ofDay number).year)
    (hlast : (Date.ofDay number).year ≤ lastYear) : (Date.ofDay number).Valid := by
  refine ⟨hfirst, hlast, ?_⟩
  obtain ⟨cycle, y, day, month, -, -, ⟨hday, hends⟩, hmonth, hdate⟩ := exists_ofDay number
  obtain ⟨hm0, hm11, hbegun, hnext⟩ := month_bounds hday (by omega) hmonth
  rw [hdate]
  dsimp only
  refine ⟨by split <;> omega, by split <;> omega, by omega, ?_⟩
  by_cases hfebruary : month = 11
  · subst hfebruary
    change _ ≤ if isLeap (y + 400 * cycle + 1) then 29 else 28
    rcases hends with hends | ⟨hends, hleap⟩
    · split <;> omega
    · rw [if_pos hleap]
      omega
  · obtain rfl | rfl | rfl | rfl | rfl | rfl | rfl | rfl | rfl | rfl | rfl :
        month = 0 ∨ month = 1 ∨ month = 2 ∨ month = 3 ∨ month = 4 ∨ month = 5 ∨ month = 6 ∨
          month = 7 ∨ month = 8 ∨ month = 9 ∨ month = 10 := by omega
    all_goals
      simp [daysInMonth]
      omega

theorem daysInMonth_le (year : Int) (month : Nat) : daysInMonth year month ≤ 31 := by
  unfold daysInMonth
  split
  · split <;> omega
  all_goals omega

end PacketTrust.Calendar
