/-!
# Tables: entries in ascending key order

Maps, JSON objects, message headers and key tables all need the same thing: at most one entry for
a key, and an order that does not depend on the history. `Table` is the plain list of entries, and
`Ascending` says that the keys go strictly up. Texts are ordered by code point, which is also the
order of their UTF-8 bytes.

`put` and `remove` keep a table ascending; `ofList` makes one from entries in any order, a later
entry for a key taking the place of an earlier one.
-/

set_option autoImplicit false

namespace FieldSeal

/-- Entries by key. The operations below keep the keys strictly ascending. -/
abbrev Table (α : Type) := List (String × α)

namespace Table

variable {α : Type}

/-- The keys go strictly up, so no key occurs twice. -/
def Ascending (t : Table α) : Prop := t.Pairwise (fun a b => a.1 < b.1)

def get? (key : String) : Table α → Option α
  | [] => none
  | (k, a) :: rest => if k = key then some a else get? key rest

/-- Stores a value under a key, in place of the one that is there. -/
def put (key : String) (a : α) : Table α → Table α
  | [] => [(key, a)]
  | (k, b) :: rest =>
    if key < k then (key, a) :: (k, b) :: rest
    else if key = k then (key, a) :: rest
    else (k, b) :: put key a rest

def remove (key : String) : Table α → Table α
  | [] => []
  | (k, a) :: rest => if k = key then rest else (k, a) :: remove key rest

/-- Enters the given entries one after the other. -/
def ofList (entries : List (String × α)) : Table α :=
  entries.foldl (fun t e => put e.1 e.2 t) []

end Table

end FieldSeal
