import PacketTrust.Bytes
import PacketTrust.Crypto.Modular

/-! The curve P-256: y² = x³ - 3x + b over a prime field. Points are kept with a common denominator,
where (x, y, z) stands for (x / z², y / z³), so that sums need no division. -/

namespace PacketTrust.P256

def p : Nat := 0xffffffff00000001000000000000000000000000ffffffffffffffffffffffff
def b : Nat := 0x5ac635d8aa3a93e7b3ebbd55769886bc651d06b0cc53b0f63bce3c3e27d2604b

/-- The number of points. -/
def order : Nat := 0xffffffff00000000ffffffffffffffffbce6faada7179e84f3b9cac2fc632551

/-- A point; `z` is zero for the point at infinity. -/
structure Point where
  x : Nat
  y : Nat
  z : Nat
deriving DecidableEq, Repr

namespace Point

def infinity : Point := ⟨1, 1, 0⟩

def base : Point where
  x := 0x6b17d1f2e12c4247f8bce6e563a440f277037d812deb33a0f4a13945d898c296
  y := 0x4fe342e2fe1a7f9b8ee7eb4a7c0f9e162bce33576b315ececbb6406837bf51f5
  z := 1

def double (q : Point) : Point :=
  if q.z = 0 then infinity
  else
    let delta := q.z * q.z % p
    let gamma := q.y * q.y % p
    let beta := q.x * gamma % p
    let alpha := 3 * (Modular.sub p q.x delta * ((q.x + delta) % p)) % p
    let x := Modular.sub p (alpha * alpha % p) (8 * beta % p)
    let z := 2 * (q.y * q.z) % p
    let y := Modular.sub p (alpha * Modular.sub p (4 * beta % p) x % p) (8 * (gamma * gamma) % p)
    ⟨x, y, z⟩

def add (q r : Point) : Point :=
  if q.z = 0 then r
  else if r.z = 0 then q
  else
    let z₁ := q.z * q.z % p
    let z₂ := r.z * r.z % p
    let u₁ := q.x * z₂ % p
    let u₂ := r.x * z₁ % p
    let s₁ := q.y * r.z % p * z₂ % p
    let s₂ := r.y * q.z % p * z₁ % p
    let h := Modular.sub p u₂ u₁
    let d := Modular.sub p s₂ s₁
    if h = 0 then if d = 0 then double q else infinity
    else
      let h₂ := h * h % p
      let h₃ := h * h₂ % p
      let v := u₁ * h₂ % p
      let x := Modular.sub p (Modular.sub p (d * d % p) h₃) (2 * v % p)
      let y := Modular.sub p (d * Modular.sub p v x % p) (s₁ * h₃ % p)
      ⟨x, y, h * (q.z * r.z % p) % p⟩

/-- The sum of `k` copies of a point. -/
def scale (k : Nat) (q : Point) : Point :=
  if k = 0 then infinity
  else
    let half := double (scale (k / 2) q)
    if k % 2 = 1 then add half q else half
termination_by k

/-- The two coordinates of a point that is not at infinity. -/
def affine? (q : Point) : Option (Nat × Nat) :=
  if q.z = 0 then none
  else
    let i := Modular.inverse p q.z
    let i₂ := i * i % p
    some (q.x * i₂ % p, q.y * i₂ % p * i % p)

/-- The right side of the equation of the curve. -/
def cubic (x : Nat) : Nat := (x * x % p * x + (p - 3) * x + b) % p

/-- The point with these coordinates, if the curve has it. -/
def ofAffine? (x y : Nat) : Option Point :=
  if x < p ∧ y < p ∧ y * y % p = cubic x then some ⟨x, y, 1⟩ else none

/-- A root of the cubic at `x`, where there is one. -/
def root (x : Nat) : Nat := Modular.pow p (cubic x) ((p + 1) / 4)

/-- The point at `x` whose other coordinate is odd or even. -/
def ofParity? (x : Nat) (odd : Bool) : Option Point :=
  let y := root x
  ofAffine? x (if (y % 2 == 1) == odd then y else p - y)

/-- The point at `x` with the smaller other coordinate. -/
def ofSmaller? (x : Nat) : Option Point :=
  let y := root x
  ofAffine? x (if y ≤ p - y then y else p - y)

/-- Reads a point: both coordinates, or the first one and a choice of the second. -/
def decode? (bytes : Bytes) : Option Point :=
  match bytes with
  | [] => none
  | form :: rest =>
    let x := Bytes.toNat (rest.take 32)
    if form = 4 ∧ rest.length = 64 then ofAffine? x (Bytes.toNat (rest.drop 32))
    else if rest.length = 32 then
      if form = 2 then ofParity? x false
      else if form = 3 then ofParity? x true
      else if form = 5 then ofSmaller? x
      else none
    else none

def encode (q : Point) : Bytes :=
  match q.affine? with
  | some (x, y) => 4 :: Bytes.bigEndian 32 x ++ Bytes.bigEndian 32 y
  | none => [0]

end Point

end PacketTrust.P256
