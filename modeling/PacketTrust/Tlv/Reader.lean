import PacketTrust.Tlv.Number

/-! Reading elements off a buffer. A cursor holds what is left to read and where that starts, and
each read moves it on; a read that fails leaves it at the part that was missing. Main statement:
every element read makes what is left shorter, so a loop over elements ends. -/

namespace PacketTrust.Tlv

structure Cursor where
  rest : Bytes
  position : Nat
deriving DecidableEq, Repr

/-- A read either moves the cursor and gives a value or leaves it where it could not go on. -/
abbrev Read (α : Type) := EStateM Error Cursor α

namespace Cursor

def start (bytes : Bytes) : Cursor := ⟨bytes, 0⟩

/-- The cursor at an offset of the buffer, or past its end. -/
def seek (bytes : Bytes) (position : Nat) : Cursor := ⟨bytes.drop position, position⟩

def isEmpty (c : Cursor) : Bool := c.rest.isEmpty

end Cursor

/-- An element found in a buffer, with the range of offsets that it fills there. -/
structure Element where
  type : UInt64
  value : Bytes
  start : Nat
  stop : Nat
deriving DecidableEq, Repr

namespace Read

/-- The next `n` octets. -/
def octets (n : Nat) : Read Bytes := fun c =>
  let taken := c.rest.take n
  if taken.length = n then .ok taken ⟨c.rest.drop n, c.position + n⟩
  else .error (.truncated c.position) c

/-- The next `n` octets as a big-endian number. -/
def bigEndian (n : Nat) : Read UInt64 := do
  pure (UInt64.ofNat (Bytes.toNat (← octets n)))

/-- A type or length, in any of its four forms. -/
def var : Read UInt64 := do
  let first ← bigEndian 1
  if first = 253 then bigEndian 2
  else if first = 254 then bigEndian 4
  else if first = 255 then bigEndian 8
  else pure first

def element : Read Element := fun c =>
  (do
    let type ← var
    let length ← var
    let value ← octets length.toNat
    pure ⟨type, value, c.position, (← get).position⟩ : Read Element) c

/-- The type of the next element, if there is one; the cursor stays. -/
def peekType : Read (Option UInt64) := fun c =>
  if c.isEmpty then .ok none c
  else match var c with
    | .ok type _ => .ok (some type) c
    | .error e _ => .error e c

/-- The next element, which must have the given type. -/
def expected (type : UInt64) : Read Element := do
  match ← peekType with
  | none => throw (.missing type)
  | some actual => if actual = type then element else throw (.unexpectedType type actual)

/-- The next element if it has the given type. -/
def optional (type : UInt64) : Read (Option Element) := do
  if (← peekType) = some type then some <$> element else pure none

end Read

/-- The result of a read whose cursor is of no more use. -/
def Read.result (read : Read α) (c : Cursor) : Except Error α :=
  match read c with
  | .ok a _ => .ok a
  | .error e _ => .error e

/-- The one element of the given type that a buffer holds, with nothing behind it. -/
def single (type : UInt64) (bytes : Bytes) : Except Error Element :=
  match Read.expected type (Cursor.start bytes) with
  | .ok element c =>
    if c.isEmpty then .ok element
    else .error (.malformed (.trailing c.rest.length type))
  | .error e _ => .error e

namespace Read

theorem octets_ok {n : Nat} {c d : Cursor} {bytes : Bytes} (h : octets n c = .ok bytes d) :
    n ≤ c.rest.length ∧ bytes = c.rest.take n ∧ d = ⟨c.rest.drop n, c.position + n⟩ := by
  unfold octets at h
  dsimp only at h
  split at h
  · rename_i hn
    rw [List.length_take] at hn
    injection h with h₁ h₂
    exact ⟨by omega, h₁.symm, h₂.symm⟩
  · cases h

/-- A successful bind ran both of its parts. -/
theorem bind_ok {α β : Type} {r : Read α} {k : α → Read β} {c e : Cursor} {b : β}
    (h : (r >>= k) c = .ok b e) : ∃ a d, r c = .ok a d ∧ k a d = .ok b e := by
  change EStateM.bind r k c = _ at h
  unfold EStateM.bind at h
  split at h
  · exact ⟨_, _, ‹_›, h⟩
  · cases h

theorem bigEndian_ok {n : Nat} {c d : Cursor} {v : UInt64} (h : bigEndian n c = .ok v d) :
    n ≤ c.rest.length ∧ v = UInt64.ofNat (Bytes.toNat (c.rest.take n)) ∧
      d = ⟨c.rest.drop n, c.position + n⟩ := by
  obtain ⟨bytes, e, ho, hp⟩ := bind_ok h
  obtain ⟨hn, rfl, rfl⟩ := octets_ok ho
  injection hp with h₁ h₂
  exact ⟨hn, h₁.symm, h₂.symm⟩

/-- A type or length takes at least one octet and moves the position by what it takes. -/
theorem var_ok {c d : Cursor} {v : UInt64} (h : var c = .ok v d) :
    d.rest.length < c.rest.length ∧
      d.position + d.rest.length = c.position + c.rest.length := by
  obtain ⟨first, e, hf, hk⟩ := bind_ok h
  obtain ⟨hn, -, rfl⟩ := bigEndian_ok hf
  have wide : ∀ n, bigEndian n ⟨c.rest.drop 1, c.position + 1⟩ = .ok v d →
      d.rest.length < c.rest.length ∧
        d.position + d.rest.length = c.position + c.rest.length := by
    intro n hb
    obtain ⟨hm, -, rfl⟩ := bigEndian_ok hb
    simp only [List.length_drop] at hm ⊢
    omega
  split at hk
  · exact wide 2 hk
  split at hk
  · exact wide 4 hk
  split at hk
  · exact wide 8 hk
  injection hk with _ h₂
  subst h₂
  simp only [List.length_drop]
  omega

/-- An element takes at least two octets, and its range ends where the next read begins. -/
theorem element_ok {c d : Cursor} {e : Element} (h : element c = .ok e d) :
    d.rest.length < c.rest.length ∧ e.start = c.position ∧ e.stop = d.position ∧
      d.position + d.rest.length = c.position + c.rest.length := by
  obtain ⟨type, c₁, h₁, h⟩ := bind_ok h
  obtain ⟨length, c₂, h₂, h⟩ := bind_ok h
  obtain ⟨value, c₃, h₃, h⟩ := bind_ok h
  obtain ⟨c', c₄, h₄, h⟩ := bind_ok h
  obtain ⟨hn, rfl, rfl⟩ := octets_ok h₃
  injection h₄ with h₄ h₅
  subst h₄ h₅
  injection h with h₆ h₇
  subst h₆ h₇
  have l₁ := var_ok h₁
  have l₂ := var_ok h₂
  refine ⟨?_, rfl, rfl, ?_⟩ <;> simp only [List.length_drop] <;> omega

end Read

end PacketTrust.Tlv
