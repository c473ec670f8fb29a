import PacketTrust.Name.Component
import PacketTrust.Tlv.Elements

/-! Hierarchical names and their wire form. In canonical order a name comes directly before the
names that it is a proper beginning of. -/

namespace PacketTrust

structure Name where
  components : List Component
deriving DecidableEq, Repr, Inhabited

namespace Name

def length (n : Name) : Nat := n.components.length

/-- The component at an index; a negative index counts from the end. -/
def get? (n : Name) (index : Int) : Option Component :=
  if 0 ≤ index then n.components[index.toNat]?
  else if index.natAbs ≤ n.length then n.components[n.length - index.natAbs]?
  else none

/-- The first `count` components; a negative count leaves that many out at the end. -/
def take (n : Name) (count : Int) : Name :=
  if 0 ≤ count then ⟨n.components.take count.toNat⟩
  else ⟨n.components.take (n.length - count.natAbs)⟩

def push (n : Name) (c : Component) : Name := ⟨n.components ++ [c]⟩

/-- The name begins with all of the components of `a`. -/
def startsWith (n a : Name) : Bool := a.components.isPrefixOf n.components

/-- Canonical order: component by component; a proper beginning comes first. -/
def cmp (a b : Name) : Ordering := List.compareLex Component.cmp a.components b.components

instance : Std.TransCmp cmp where
  eq_swap := (inferInstance : Std.OrientedCmp (List.compareLex Component.cmp)).eq_swap
  isLE_trans := (inferInstance : Std.TransCmp (List.compareLex Component.cmp)).isLE_trans

instance : Std.LawfulEqCmp cmp where
  eq_of_compare {a b} h := by
    have order : Std.LawfulEqCmp (List.compareLex Component.cmp) := inferInstance
    have := order.eq_of_compare h
    cases a
    cases b
    simp_all

instance : Ord Name := ⟨cmp⟩

instance : Std.TransOrd Name := inferInstanceAs (Std.TransCmp cmp)

instance : Std.LawfulEqOrd Name := inferInstanceAs (Std.LawfulEqCmp cmp)

/-- The encodings of the components, one after the other. -/
def encodeComponents (n : Name) : Bytes := n.components.flatMap Component.encode

def encode (n : Name) : Bytes := Tlv.encode Tlv.Types.name n.encodeComponents

/-- The components that a run of elements stands for. -/
def ofElements : Tlv.Elements → Except Tlv.Error (List Component)
  | .done => .ok []
  | .broken e => .error e
  | .next element rest => do
    let component : Component := ⟨element.type, element.value⟩
    component.check
    let components ← ofElements rest
    pure (component :: components)

def decodeValue (value : Bytes) : Except Tlv.Error Name := do
  pure ⟨← ofElements (Tlv.Elements.ofBytes value)⟩

def decode (wire : Bytes) : Except Tlv.Error Name := do
  decodeValue (← Tlv.single Tlv.Types.name wire).value

end Name

end PacketTrust
