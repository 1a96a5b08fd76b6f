import FieldSeal.Cipher.Text
import FieldSeal.Cli.Arguments
import FieldSeal.Document
import FieldSeal.Schema.Names
import FieldSeal.Settings

/-!
# Running the commands

The commands see the world through a `Host`: they read and write whole files, print, and are given
nonces. Everything else is decided here, so that a host may be the file system or a table of texts.

A command that cannot go on ends with a `Complaint`: the cause, and what was being done. `validate`
reports a bad schema or bad data as its result and not as a complaint.
-/

set_option autoImplicit false

namespace FieldSeal.Cli

/-- Why a command ended early. -/
structure Complaint where
  context : Option String
  cause : String

namespace Complaint

/-- What was being done, or the cause where that says it all. -/
def headline (c : Complaint) : String := c.context.getD c.cause

def full (c : Complaint) : String :=
  match c.context with
  | some context => context ++ ": " ++ c.cause
  | none => c.cause

end Complaint

/-- What the commands need from the outside. Reading and writing fail with the reason. -/
structure Host (m : Type → Type) where
  read : String → m (Except String String)
  write : String → String → m (Except String Unit)
  print : String → m Unit
  /-- Nonces for so many calls, a new one for each. -/
  nonces : Nat → m (Nat → Nonce)

inductive Exit where
  | success
  | failure (complaint : Complaint)
  | usage

variable {m : Type → Type} [Monad m] (host : Host m)

abbrev Action (m : Type → Type) := ExceptT Complaint m

def complain {α : Type} (cause : String) : Action m α := throw ⟨none, cause⟩

def perform {α : Type} (act : m α) : Action m α := ExceptT.lift act

/-- A file's content; `what` says what is being read. -/
def load (what path : String) : Action m String := do
  match ← perform (host.read path) with
  | .ok content => return content
  | .error reason => throw ⟨some ("reading " ++ what ++ path), reason⟩

def loadSchema (path : String) : Action m Schema := do
  match Schema.ofText (← load host "schema " path) with
  | .ok s => return s
  | .error e => throw ⟨some ("parsing schema " ++ path), e.message⟩

def loadDocument (path : String) : Action m Json := do
  match Json.ofText? (← load host "" path) with
  | some j => return j
  | none => throw ⟨some ("parsing " ++ path), "the text is not JSON"⟩

def loadSettings (path : String) : Action m Settings := do
  match Settings.ofText? (← load host "config " path) with
  | some s => return s
  | none => throw ⟨some ("parsing config " ++ path), "the text does not hold settings"⟩

/-- The passphrase that the options lead to. -/
def passphrase : KeyChoice → Action m String
  | ⟨some given, _, _⟩ => return given
  | ⟨none, some id, config⟩ => do
    let source ← match config with
      | some path => pure (← loadSettings host path).keySource
      | none => pure KeySource.identity
    match source.key id with
    | .ok key => return key
    | .error e => complain e.message
  | ⟨none, none, _⟩ => complain "one of --key or --key-id is required"

/-- Encrypts or decrypts a document into a file or onto the output. -/
def sealFile (direction : Direction) (files : Files) (key : KeyChoice) : Action m Unit := do
  -- The key is looked for before any file of the document is read.
  let cipher := TextCipher.ofPassphrase (← passphrase host key)
  let s ← loadSchema host files.schema
  let document ← loadDocument host files.input
  -- There are no more calls than texts that could be handed over.
  let nonces ← perform (host.nonces document.texts)
  match s.sealDocument (cipher.withNonces nonces) direction document .empty with
  | .error e => complain e.message
  | .ok (result, _) =>
    match files.output with
    | none => perform (host.print (result.pretty ++ "\n"))
    | some path =>
      match ← perform (host.write path result.pretty) with
      | .ok () => return ()
      | .error reason => complain reason

/-- The line of a record: its name, and the fields that lead to tagged strings. -/
def inspectLine (t : RecordType) (positions : List Nat) : String :=
  let fields := positions.filterMap fun p =>
    t.fields[p]?.map fun f => f.name ++ "@" ++ toString p
  t.name.full ++ ": " ++
    (if fields.isEmpty then "no sensitive fields" else ", ".intercalate fields)

/-- The lines of records, and the index that goes from one to the next as the last one leaves it. -/
def inspectLines : List RecordType → FieldIndex → List String × FieldIndex
  | [], index => ([], index)
  | t :: rest, index =>
    let (positions, index) := t.sensitivePositions index
    let (lines, index) := inspectLines rest index
    (inspectLine t positions :: lines, index)

/-- Lists the sensitive fields of every record of a schema, and gives the index that it has filled. -/
def reportFields (path : String) : Action m FieldIndex := do
  let s ← loadSchema host path
  let (lines, index) := inspectLines s.records .empty
  for line in ("Schema: " ++ path) :: lines do
    perform (host.print (line ++ "\n"))
  return index

/-- Checks a schema, and a plain document against it. -/
def reportValidity (schema : String) (data : Option String) : Action m Unit := do
  match ← perform (loadSchema host schema).run with
  | .error complaint =>
    perform (host.print ("Schema validation: FAIL - " ++ complaint.full ++ "\n"))
  | .ok s =>
    perform (host.print "Schema validation: PASS\n")
    match data with
    | none => return ()
    | some path =>
      let document ← loadDocument host path
      match s.fromJson .plain document with
      | .ok _ => perform (host.print "Data validation: PASS\n")
      | .error e =>
        perform (host.print ("Data validation: FAIL - " ++ (Failure.codec e).message ++ "\n"))

def Command.run : Command → Action m Unit
  | .encrypt files key => sealFile host .encrypt files key
  | .decrypt files key => sealFile host .decrypt files key
  | .inspect schema => do
    let _ ← reportFields host schema
    return ()
  | .validate schema data => reportValidity host schema data

def version : String := "shred 0.1.0"

def run (arguments : List String) : m Exit := do
  match Request.ofArguments? arguments with
  | none => return .usage
  | some .version => do
    host.print (version ++ "\n")
    return .success
  | some (.command c) =>
    match ← (c.run host).run with
    | .ok () => return .success
    | .error complaint => return .failure complaint

end FieldSeal.Cli
