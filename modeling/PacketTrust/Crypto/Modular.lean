/-! Powers and inverses modulo a number. -/

namespace PacketTrust.Modular

/-- The power of a base modulo `m`, by squaring. -/
def pow (m base exponent : Nat) : Nat :=
  if exponent = 0 then 1 % m
  else
    let half := pow m base (exponent / 2)
    let square := half * half % m
    if exponent % 2 = 1 then square * base % m else square
termination_by exponent

/-- The inverse modulo an odd prime, as a power. -/
def inverse (p n : Nat) : Nat := pow p n (p - 2)

/-- The difference modulo `m` of two numbers below it. -/
def sub (m a b : Nat) : Nat := (a + (m - b)) % m

end PacketTrust.Modular
