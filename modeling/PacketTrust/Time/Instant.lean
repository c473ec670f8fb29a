import PacketTrust.Time.Calendar
import PacketTrust.Time.Duration

/-! Moments of universal time, to the nanosecond, within the supported years. A leap second belongs
to the second before it, whose nanoseconds then go on beyond a thousand million; so moments are
ordered by second first, and a leap second lies between its neighbours. -/

namespace PacketTrust

structure Instant where
  /-- Seconds since 1970, leap seconds not counted. -/
  second : Int
  nano : Nat
deriving DecidableEq, Repr, Inhabited

namespace Instant

def Le (a b : Instant) : Prop :=
  a.second < b.second ∨ a.second = b.second ∧ a.nano ≤ b.nano

def Lt (a b : Instant) : Prop :=
  a.second < b.second ∨ a.second = b.second ∧ a.nano < b.nano

instance : LE Instant := ⟨Le⟩
instance : LT Instant := ⟨Lt⟩

instance (a b : Instant) : Decidable (a ≤ b) := inferInstanceAs (Decidable (_ ∨ _))
instance (a b : Instant) : Decidable (a < b) := inferInstanceAs (Decidable (_ ∨ _))

theorem le_def {a b : Instant} :
    a ≤ b ↔ a.second < b.second ∨ a.second = b.second ∧ a.nano ≤ b.nano := Iff.rfl

theorem lt_def {a b : Instant} :
    a < b ↔ a.second < b.second ∨ a.second = b.second ∧ a.nano < b.nano := Iff.rfl

protected theorem not_lt {a b : Instant} : ¬ a < b ↔ b ≤ a := by
  rw [lt_def, le_def]
  omega

protected theorem le_refl (a : Instant) : a ≤ a := by
  rw [le_def]
  omega

protected theorem le_antisymm {a b : Instant} (hab : a ≤ b) (hba : b ≤ a) : a = b := by
  obtain ⟨second, nano⟩ := a
  obtain ⟨second', nano'⟩ := b
  rw [le_def] at hab hba
  simp only [mk.injEq] at *
  omega

protected theorem le_trans {a b c : Instant} (hab : a ≤ b) (hbc : b ≤ c) : a ≤ c := by
  rw [le_def] at *
  omega

protected theorem le_of_not_le {a b : Instant} (h : ¬ a ≤ b) : b ≤ a := by
  rw [le_def] at *
  omega

protected def min (a b : Instant) : Instant := if a ≤ b then a else b

def cmp : Instant → Instant → Ordering := compareLex (compareOn (·.second)) (compareOn (·.nano))

instance : Ord Instant := ⟨cmp⟩

instance : Std.TransOrd Instant := inferInstanceAs (Std.TransCmp (compareLex _ _))

instance : Std.LawfulEqOrd Instant where
  eq_of_compare {a b} h := by
    have hcmp : cmp a b = .eq := h
    simp only [cmp, compareLex, compareOn, Ordering.then_eq_eq] at hcmp
    cases a
    cases b
    simp_all

theorem cmp_eq_lt_iff {a b : Instant} : cmp a b = .lt ↔ a < b := by
  simp only [cmp, compareLex, compareOn, Ordering.then_eq_lt, Int.compare_eq_lt, Nat.compare_eq_lt,
    Std.compare_eq_iff_eq, lt_def]

/-- Within a leap second. -/
def Leap (t : Instant) : Prop := 1000000000 ≤ t.nano

instance (t : Instant) : Decidable t.Leap := inferInstanceAs (Decidable (_ ≤ _))

/-- The nanoseconds since 1970; those of a leap second come again in the second after it. -/
def toNanos (t : Instant) : Int := t.second * 1000000000 + t.nano

def ofNanos (ns : Int) : Instant := ⟨ns / 1000000000, (ns % 1000000000).toNat⟩

/-- The whole milliseconds since 1970. -/
def toMillis (t : Instant) : Int := t.second * 1000 + (t.nano / 1000000 : Nat)

def ofMillis (ms : Int) : Instant := .ofNanos (ms * 1000000)

@[simp] theorem toNanos_ofNanos (ns : Int) : (ofNanos ns).toNanos = ns := by
  simp only [toNanos, ofNanos]
  omega

theorem not_leap_ofNanos (ns : Int) : ¬ (ofNanos ns).Leap := by
  simp only [Leap, ofNanos]
  omega

theorem toMillis_eq (t : Instant) : t.toMillis = t.toNanos / 1000000 := by
  simp only [toMillis, toNanos]
  omega

/-- The first and the last millisecond of the supported years. -/
def leastMillis : Int := -8334601228800000
def greatestMillis : Int := 8210266876799999

/-- The moment of that many nanoseconds, if the supported years hold it. -/
def ofNanos? (ns : Int) : Option Instant :=
  if leastMillis ≤ ns / 1000000 ∧ ns / 1000000 ≤ greatestMillis then some (ofNanos ns) else none

/-- The moment that much later, if the supported years hold it. What leads on out of a leap second
counts from the second before it, what leads back out of it from the second after it. -/
def add? (t : Instant) (span : Span) : Option Instant :=
  let nano : Int := t.nano + span.nanoseconds
  if ¬ t.Leap then ofNanos? (t.toNanos + span.nanoseconds)
  else if 0 < span.nanoseconds ∧ 2000000000 ≤ nano then
    ofNanos? (t.toNanos - 1000000000 + span.nanoseconds)
  else if span.nanoseconds ≤ -1000000000 then ofNanos? (t.toNanos + span.nanoseconds)
  else some ⟨t.second, nano.toNat⟩

/-- The beginning of its second. -/
def floorSecond (t : Instant) : Instant := ⟨t.second, 0⟩

end Instant

end PacketTrust
