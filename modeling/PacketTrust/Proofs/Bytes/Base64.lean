import PacketTrust.Bytes.Base64
import PacketTrust.Text.Blank

/-! Base64 that is written and read back. Main statement: reading undoes writing, and there is no
blank in what is written. -/

namespace PacketTrust.Base64

/-- The sixty-four characters: each stands for its number, and none is a blank or the padding. -/
theorem digit_spec : ∀ n < 64, value? (digit n) = some n ∧ digit n ≠ '=' ∧
    Text.isBlank (digit n) = false := by
  decide +kernel

theorem value?_digit {n : Nat} (h : n < 64) : value? (digit n) = some n := (digit_spec n h).1

theorem digit_ne_padding {n : Nat} (h : n < 64) : digit n ≠ '=' := (digit_spec n h).2.1

theorem isBlank_digit {n : Nat} (h : n < 64) : Text.isBlank (digit n) = false :=
  (digit_spec n h).2.2

theorem ofNat_eq_of_toNat {n : Nat} {a : UInt8} (h : n = a.toNat) : UInt8.ofNat n = a := by
  rw [h, UInt8.ofNat_toNat]

section

variable (a b c : UInt8)

/-- The first and the second octet are made up of what two characters tell of them. -/
theorem ofNat_first :
    UInt8.ofNat (a.toNat / 4 * 4 + (a.toNat % 4 * 16 + b.toNat / 16) / 16) = a := by
  have hb := b.toNat_lt
  exact ofNat_eq_of_toNat (by omega)

theorem ofNat_second : UInt8.ofNat ((a.toNat % 4 * 16 + b.toNat / 16) % 16 * 16 +
    (b.toNat % 16 * 4 + c.toNat / 64) / 4) = b := by
  have hb := b.toNat_lt
  have hc := c.toNat_lt
  exact ofNat_eq_of_toNat (by omega)

theorem ofNat_third :
    UInt8.ofNat ((b.toNat % 16 * 4 + c.toNat / 64) % 4 * 64 + c.toNat % 64) = c := by
  have hc := c.toNat_lt
  exact ofNat_eq_of_toNat (by omega)

theorem digits_lt : a.toNat / 4 < 64 ∧ a.toNat % 4 * 16 + b.toNat / 16 < 64 ∧
    b.toNat % 16 * 4 + c.toNat / 64 < 64 ∧ c.toNat % 64 < 64 := by
  have ha := a.toNat_lt
  have hb := b.toNat_lt
  have hc := c.toNat_lt
  omega

theorem decodeLast?_three :
    decodeLast? (digit (a.toNat / 4)) (digit (a.toNat % 4 * 16 + b.toNat / 16))
      (digit (b.toNat % 16 * 4 + c.toNat / 64)) (digit (c.toNat % 64)) = some [a, b, c] := by
  obtain ⟨hx, hy, hz, hw⟩ := digits_lt a b c
  simp only [decodeLast?, value?_digit hx, value?_digit hy, value?_digit hz, value?_digit hw,
    digit_ne_padding hz, digit_ne_padding hw, if_false, Option.bind_eq_bind, Option.bind_some,
    ofNat_first, ofNat_second, ofNat_third]
  rfl

/-- Behind two octets the bits of a third would be zeros. -/
theorem decodeLast?_two :
    decodeLast? (digit (a.toNat / 4)) (digit (a.toNat % 4 * 16 + b.toNat / 16))
      (digit (b.toNat % 16 * 4)) '=' = some [a, b] := by
  obtain ⟨hx, hy, hz, -⟩ := digits_lt a b 0
  have hsecond := ofNat_second a b 0
  rw [UInt8.toNat_zero, Nat.zero_div, Nat.add_zero] at hz hsecond
  simp only [decodeLast?, value?_digit hx, value?_digit hy, value?_digit hz, digit_ne_padding hz,
    if_false, if_true, Option.bind_eq_bind, Option.bind_some, ofNat_first, hsecond]
  exact if_pos (by omega)

theorem decodeLast?_one : decodeLast? (digit (a.toNat / 4)) (digit (a.toNat % 4 * 16)) '=' '=' =
    some [a] := by
  obtain ⟨hx, hy, -, -⟩ := digits_lt a 0 0
  have hfirst := ofNat_first a 0
  rw [UInt8.toNat_zero, Nat.zero_div, Nat.add_zero] at hy hfirst
  simp only [decodeLast?, value?_digit hx, value?_digit hy, if_true, Option.bind_eq_bind,
    Option.bind_some, hfirst]
  exact if_pos ⟨trivial, by omega⟩

end

theorem encode_ne_nil {bytes : Bytes} (h : bytes ≠ []) : encode bytes ≠ [] := by
  match bytes with
  | [a] => exact List.cons_ne_nil _ _
  | [a, b] => exact List.cons_ne_nil _ _
  | a :: b :: c :: rest => exact List.cons_ne_nil _ _

theorem decode?_more {a b c d : Char} {rest : List Char} (h : rest ≠ []) :
    decode? (a :: b :: c :: d :: rest) = decodeLast? a b c d >>= fun bytes =>
      if bytes.length = 3 then (decode? rest).map (bytes ++ ·) else none := by
  cases rest with
  | nil => exact absurd rfl h
  | cons e rest => rw [decode?.eq_def]

theorem decode?_encode (bytes : Bytes) : decode? (encode bytes) = some bytes := by
  induction bytes using encode.induct with
  | case1 => rfl
  | case2 a => exact decodeLast?_one a
  | case3 a b => exact decodeLast?_two a b
  | case4 a b c rest ih =>
    cases rest with
    | nil => exact decodeLast?_three a b c
    | cons d rest =>
      rw [encode, decode?_more (encode_ne_nil (List.cons_ne_nil _ _)), decodeLast?_three, ih]
      rfl

/-- What holds of the sixty-four characters and of the padding holds of all that is written. -/
theorem forall_mem_encode {P : Char → Prop} (hdigit : ∀ n < 64, P (digit n)) (hpadding : P '=')
    (bytes : Bytes) : ∀ c ∈ encode bytes, P c := by
  induction bytes using encode.induct with
  | case1 => exact nofun
  | case2 a =>
    obtain ⟨hx, hy, -, -⟩ := digits_lt a 0 0
    simp only [encode, List.forall_mem_cons]
    exact ⟨hdigit _ hx, hdigit _ hy, hpadding, hpadding, nofun⟩
  | case3 a b =>
    obtain ⟨hx, hy, hz, -⟩ := digits_lt a b 0
    simp only [encode, List.forall_mem_cons]
    exact ⟨hdigit _ hx, hdigit _ hy, hdigit _ hz, hpadding, nofun⟩
  | case4 a b c rest ih =>
    obtain ⟨hx, hy, hz, hw⟩ := digits_lt a b c
    simp only [encode, List.forall_mem_cons]
    exact ⟨hdigit _ hx, hdigit _ hy, hdigit _ hz, hdigit _ hw, ih⟩

theorem withoutBlanks_encode (bytes : Bytes) :
    Text.withoutBlanks (encode bytes) = encode bytes := by
  have hplain : ∀ c ∈ encode bytes, Text.isBlank c = false :=
    forall_mem_encode (P := (Text.isBlank · = false)) (fun n hn => isBlank_digit hn) rfl bytes
  exact List.filter_eq_self.2 fun c hc => by rw [hplain c hc]; rfl

end PacketTrust.Base64
