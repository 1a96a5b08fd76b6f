import FieldSeal.Error
import FieldSeal.Table

/-!
# Keys by id

A message names its key by an id. A key source turns the id into the passphrase: either the id is the
passphrase, or a table holds it. Taking an id out of the table makes every text sealed under it
unreadable, which is how data is erased without being found.
-/

set_option autoImplicit false

namespace FieldSeal

/-- Where the passphrase of an id comes from. -/
inductive KeySource where
  /-- The id itself is the passphrase. -/
  | identity
  | table (keys : Table String)

namespace KeySource

def key : KeySource → String → Except KeyError String
  | .identity, id => .ok id
  | .table keys, id =>
    match Table.get? id keys with
    | some key => .ok key
    | none => .error (.notFound id)

end KeySource

end FieldSeal
