/-! The pieces of a text between slashes, as names and paths have them. -/

namespace PacketTrust.Text

/-- There is one piece more than there are slashes; pieces may be empty. -/
def segments : List Char → List (List Char)
  | [] => [[]]
  | '/' :: rest => [] :: segments rest
  | c :: rest =>
    match segments rest with
    | [] => [[c]]
    | segment :: others => (c :: segment) :: others

end PacketTrust.Text
