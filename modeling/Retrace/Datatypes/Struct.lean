import Retrace.CLib.CString
import Mathlib.Data.BitVec

/-!
# The layout of a struct data type

`get_member` and `retrace_struct_get_size` of `datatypes/basic.c`: two loops over the members of a struct.
A table of members ends with an entry that has no name.
-/

namespace Retrace.Datatypes

open CLib

/-- Sizes, and addresses as numbers. -/
abbrev Size := BitVec 64

/-- `array` is the flag `CDM_ARRAY` of the modifiers. -/
structure StructMember where
  name : Bytes
  type : Bytes
  array : Bool := false
  array_cnt : Size := 0

/-- `get_size` of the data at an address; `none` is a negative return value. -/
structure DataType where
  get_size : Size → Option Size

/-- The registry that `retrace_datatype_get` searches. -/
abbrev Types := Bytes → Option DataType

def member_loop (types : Types) (member_name : Bytes) : List StructMember → Size → Except Int (DataType × Size)
  | [], _ => .error (-1)
  | m_struct :: rest, m_data =>
    match types m_struct.type with
    | none => .error (-1)
    | some m_type =>
      if m_struct.name = [] ∨ m_struct.name = member_name then .ok (m_type, m_data)
      else
        match m_type.get_size m_data with
        | none => .error (-2)
        | some m_size => member_loop types member_name rest (m_data + m_size)

def get_member (types : Types) (struct_members : List StructMember) (struct_data : Size) (member_name : Bytes) :
    Except Int (DataType × Size) :=
  member_loop types member_name struct_members struct_data

def size_loop (types : Types) (struct_members : List StructMember) (data : Size) :
    List StructMember → Size → Int × Size
  | [], dst => (0, dst)
  | member :: rest, dst =>
    if member.name = [] then (0, dst)
    else
      match get_member types struct_members data member.name with
      | .error ret => (ret, dst)
      | .ok (member_type, member_data) =>
        match member_type.get_size member_data with
        | none => (-1, dst)
        | some member_size =>
          size_loop types struct_members data rest
            (dst + if member.array then member.array_cnt * member_size else member_size)

/-- The return value and what is stored at `dst_size_t`. -/
def retrace_struct_get_size (types : Types) (struct_members : List StructMember) (data : Size) : Int × Size :=
  size_loop types struct_members data struct_members 0

/-- A struct whose members have types of a fixed size, which stands beside each of them. As in C, the names of the
members are distinct. -/
structure Struct (types : Types) where
  members : List (StructMember × Size)
  fixed : ∀ m ∈ members, ∃ t, types m.1.type = some t ∧ ∀ data, t.get_size data = some m.2
  named : ∀ m ∈ members, m.1.name ≠ []
  distinct : (members.map (·.1.name)).Nodup

def Struct.table {types : Types} (s : Struct types) : List StructMember :=
  s.members.map Prod.fst ++ [⟨[], [], false, 0⟩]

def extent (m : StructMember × Size) : Size := m.2 * if m.1.array then m.1.array_cnt else 1

/-- Every member is found behind the extents of the ones before it, and the last one ends where the struct ends. -/
structure LayoutAgrees {types : Types} (s : Struct types) (data : Size) : Prop where
  offsets : ∀ before m after, s.members = before ++ m :: after →
    (get_member types s.table data m.1.name).map Prod.snd = .ok (data + (before.map extent).sum)
  size : ∀ before m, s.members = before ++ [m] →
    ∃ addr, (get_member types s.table data m.1.name).map Prod.snd = .ok addr ∧
      retrace_struct_get_size types s.table data = (0, addr + extent m - data)

end Retrace.Datatypes
