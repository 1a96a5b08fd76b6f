import FieldSeal.Json.Printer
import FieldSeal.Json.Reader
import FieldSeal.Keys

/-!
# Settings

The name of the header that carries the key id, and a table of keys. As a text they are a JSON object
with the members `key_header` and `keys`, either of which may be missing, or an array with the two in
this order, cut off after any of them.

A member of another name is skipped, so nothing is asked of it beyond the grammar. A known member may
stand only once; within `keys` the last of several entries for an id counts.
-/

set_option autoImplicit false

namespace FieldSeal

open FieldSeal.Json (Written Piece)

structure Settings where
  keyHeader : String
  keys : Table String
deriving DecidableEq

namespace Settings

/-- Where the key id is expected unless the settings say otherwise. -/
def defaultKeyHeader : String := "crypto-shredding-key"

def default : Settings := ⟨defaultKeyHeader, []⟩

instance : Inhabited Settings := ⟨default⟩

def textOf? : Written → Option String
  | .text pieces => Json.text? pieces
  | _ => none

def keysOf? : Written → Option (Table String)
  | .object members => do
    let entries ← members.mapM fun (key, w) => do return (← Json.text? key, ← textOf? w)
    return Table.ofList entries
  | _ => none

/-- The members read so far. -/
structure Parts where
  keyHeader : Option String
  keys : Option (Table String)

def Parts.toSettings (p : Parts) : Settings :=
  ⟨p.keyHeader.getD defaultKeyHeader, p.keys.getD []⟩

def Parts.add? (p : Parts) (member : List Piece × Written) : Option Parts := do
  let name ← Json.text? member.1
  if name = "key_header" then
    if p.keyHeader.isSome then none else return { p with keyHeader := ← textOf? member.2 }
  else if name = "keys" then
    if p.keys.isSome then none else return { p with keys := ← keysOf? member.2 }
  else return p

def ofWritten? : Written → Option Settings
  | .object members => (members.foldlM Parts.add? ⟨none, none⟩).map Parts.toSettings
  | .array [] => some default
  | .array [header] => do return ⟨← textOf? header, []⟩
  | .array [header, keys] => do return ⟨← textOf? header, ← keysOf? keys⟩
  | _ => none

def ofText? (text : String) : Option Settings := (Written.ofText? text).bind ofWritten?

def toText (s : Settings) : String :=
  Json.compact <| .object
    [("key_header", .string s.keyHeader),
      ("keys", .object (s.keys.map fun e => (e.1, .string e.2)))]

def keySource (s : Settings) : KeySource := .table s.keys

end Settings

end FieldSeal
