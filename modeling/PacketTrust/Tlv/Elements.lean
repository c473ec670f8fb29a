import PacketTrust.Tlv.Reader

/-! The elements of a value, one after the other, up to its end or to the first that is cut
short. -/

namespace PacketTrust.Tlv

inductive Elements where
  | done
  | broken (error : Error)
  | next (element : Element) (rest : Elements)

namespace Elements

def read (c : Cursor) : Elements :=
  if c.isEmpty then done
  else match _h : Read.element c with
    | .ok element rest => next element (read rest)
    | .error e _ => broken e
termination_by c.rest.length
decreasing_by exact (Read.element_ok _h).1

def ofBytes (bytes : Bytes) : Elements :=
  read (Cursor.start bytes)

end Elements

end PacketTrust.Tlv
