import FieldSeal.Cli.Commands

/-!
# A working directory in memory

A host for the commands whose files are a list in a state, so that a run of several commands is a
plain function. The working directory holds files and no directories; of the directories above it
and of the root only what is written there is known, and the null device, which is always empty.

A path is followed from left to right. Nothing and `.` between slashes stay where they are, `..` goes
up, and a name that is not the last part would have to be a directory, which none is. So a slash at
the end asks for a directory: reading finds a file there or nothing, and writing makes no directory.
-/

set_option autoImplicit false

namespace FieldSeal.Cli

/-- Why a file cannot be read or written. -/
inductive FileFault where
  | missing
  | denied
  | notDirectory
  | isDirectory
  | nameTooLong
deriving DecidableEq, Repr

namespace FileFault

def all : List FileFault := [.missing, .denied, .notDirectory, .isDirectory, .nameTooLong]

/-- The number that the system gives the fault. -/
def code : FileFault → Nat
  | .missing => 2
  | .denied => 13
  | .notDirectory => 20
  | .isDirectory => 21
  | .nameTooLong => 36

def ofCode? (n : Nat) : Option FileFault := all.find? fun fault => fault.code == n

def text : FileFault → String
  | .missing => "No such file or directory"
  | .denied => "Permission denied"
  | .notDirectory => "Not a directory"
  | .isDirectory => "Is a directory"
  | .nameTooLong => "File name too long"

def message (fault : FileFault) : String :=
  fault.text ++ " (os error " ++ toString fault.code ++ ")"

end FileFault

/-! ## Paths -/

/-- A directory: the root, or one so many steps above the working directory. -/
inductive Place where
  | root
  | above (steps : Nat)
deriving DecidableEq, Repr

def Place.parent : Place → Place
  | .root => .root
  | .above steps => .above (steps + 1)

def Place.here : Place := .above 0

structure Location where
  place : Place
  name : String
deriving DecidableEq, Repr

namespace Path

/-- The characters up to the first slash, and those between the slashes after it. -/
def splitSlashes : List Char → List Char × List (List Char)
  | [] => ([], [])
  | c :: rest =>
    let (first, others) := splitSlashes rest
    if c = '/' then ([], first :: others) else (c :: first, others)

def parts (path : String) : List String :=
  let (first, others) := splitSlashes path.toList
  (first :: others).map String.ofList

def start (path : String) : Place :=
  match path.toList with
  | '/' :: _ => .root
  | _ => .here

def null : String := "/dev/null"

def maxName : Nat := 255

def checkName (l : Location) : Except FileFault Unit :=
  if maxName < l.name.utf8ByteSize then .error .nameTooLong else .ok ()

end Path

/-! ## Files -/

/-- The files and their contents, one entry for a location. -/
structure Directory where
  entries : List (Location × String)

namespace Directory

/-- A working directory with files of these names. -/
def ofTable (files : Table String) : Directory :=
  ⟨files.map fun (name, content) => (⟨.here, name⟩, content)⟩

def get? (d : Directory) (l : Location) : Option String := d.entries.lookup l

def put (d : Directory) (l : Location) (content : String) : Directory :=
  ⟨(l, content) :: d.entries.filter fun e => e.1 != l⟩

/-- The location that parts lead to from a place, whatever is there. -/
def follow (d : Directory) (place : Place) : List String → Except FileFault Location
  | [] => .error .isDirectory
  | part :: rest =>
    if part = "" ∨ part = "." then d.follow place rest
    else if part = ".." then d.follow place.parent rest
    else if rest.isEmpty then .ok ⟨place, part⟩
    else do
      Path.checkName ⟨place, part⟩
      if (d.get? ⟨place, part⟩).isSome then .error .notDirectory else .error .missing

def read (d : Directory) (path : String) : Except FileFault String := do
  if path = Path.null then return ""
  let l ← d.follow (Path.start path) (Path.parts path)
  Path.checkName l
  match d.get? l with
  | some content => return content
  | none => throw .missing

/-- The directory with a file of the content where a path leads to. -/
def write (d : Directory) (path content : String) : Except FileFault Directory := do
  if path = Path.null then return d
  let parts := Path.parts path
  let named := (parts.reverse.dropWhile (· == "")).reverse
  let l ← d.follow (Path.start path) named
  -- The parts before the name are looked at first, then the slash behind it, then the name.
  if named.length < parts.length then throw .isDirectory
  Path.checkName l
  return d.put l content

end Directory

/-! ## The host -/

/-- The files, and what has been printed. -/
structure Terminal where
  directory : Directory
  printed : String

/-- The host over a terminal, with the nonces that it gives out, however many are asked for. -/
def Terminal.host (nonces : Nat → Nonce) : Host (StateM Terminal) where
  read path := do
    return (← MonadState.get).directory.read path |>.mapError FileFault.message
  write path content := do
    let t ← MonadState.get
    match t.directory.write path content with
    | .ok directory =>
      MonadState.set { t with directory }
      return .ok ()
    | .error fault => return .error fault.message
  print text := modify fun t => { t with printed := t.printed ++ text }
  nonces _ := return nonces

end FieldSeal.Cli
