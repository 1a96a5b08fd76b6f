/-!
# The command line

Four commands with options. An option has a long name and mostly a letter. Its value is the next
argument, or follows the long name after `=`, or follows the letter directly or after `=`; letters
without a value can be run together. The next argument is no value if it looks like an option. No
option may be repeated, and nothing may stand outside options but the command itself.

`--verbose` may stand before the command and after it; `--version` stands alone, before any command,
and ends the reading where it is met.
-/

set_option autoImplicit false

namespace FieldSeal.Cli

inductive Opt where
  | verbose
  | schema
  | input
  | output
  | key
  | keyId
  | config
  | data
deriving DecidableEq, Repr

namespace Opt

def long : Opt → String
  | .verbose => "verbose"
  | .schema => "schema"
  | .input => "input"
  | .output => "output"
  | .key => "key"
  | .keyId => "key-id"
  | .config => "config"
  | .data => "data"

def letter? : Opt → Option Char
  | .verbose => some 'v'
  | .schema => some 's'
  | .input => some 'i'
  | .output => some 'o'
  | .key => some 'k'
  | .keyId => none
  | .config => some 'c'
  | .data => some 'd'

def takesValue : Opt → Bool
  | .verbose => false
  | _ => true

/-- The option holds the path of a file, which cannot be empty. -/
def isPath : Opt → Bool
  | .schema | .input | .output | .config | .data => true
  | _ => false

end Opt

/-- How to come by the passphrase. A passphrase that is given goes before a key id. -/
structure KeyChoice where
  passphrase : Option String
  keyId : Option String
  config : Option String

structure Files where
  schema : String
  input : String
  output : Option String

inductive Command where
  | encrypt (files : Files) (key : KeyChoice)
  | decrypt (files : Files) (key : KeyChoice)
  | inspect (schema : String)
  | validate (schema : String) (data : Option String)

/-- What the arguments ask for. -/
inductive Request where
  | version
  | command (c : Command)

/-- The options that were given, with their values; those without a value have the empty text. -/
abbrev Given := List (Opt × String)

/-! ## Reading options -/

/-- Whether an argument can only be an option or the end of the options. -/
def looksLikeOption (argument : String) : Bool :=
  match argument.toList with
  | '-' :: _ :: _ => true
  | _ => false

/-- A name and, if there is an equals sign, what follows it. -/
def splitEquals : List Char → List Char × Option (List Char)
  | [] => ([], none)
  | c :: rest =>
    if c = '=' then ([], some rest)
    else (c :: (splitEquals rest).1, (splitEquals rest).2)

/-- What one argument gives: options with their values, or at the end one that still waits for its
value. -/
structure Argument where
  given : Given
  waiting : Option Opt

/-- The letters of an argument with a single dash. -/
def readLetters (allowed : List Opt) : List Char → Option Argument
  | [] => some ⟨[], none⟩
  | c :: rest => do
    let opt ← allowed.find? fun o => o.letter? == some c
    if opt.takesValue then
      match rest with
      | [] => return ⟨[], some opt⟩
      | '=' :: value => return ⟨[(opt, String.ofList value)], none⟩
      | value => return ⟨[(opt, String.ofList value)], none⟩
    else
      let others ← readLetters allowed rest
      return { others with given := (opt, "") :: others.given }

/-- The name of an argument with two dashes. -/
def readLong (allowed : List Opt) (cs : List Char) : Option Argument := do
  let (name, value) := splitEquals cs
  let opt ← allowed.find? fun o => o.long == String.ofList name
  match opt.takesValue, value with
  | true, some value => return ⟨[(opt, String.ofList value)], none⟩
  | true, none => return ⟨[], some opt⟩
  | false, none => return ⟨[(opt, "")], none⟩
  | false, some _ => none

/-- The options of all arguments, given the option that waits for its value. -/
def readOptions (allowed : List Opt) : Option Opt → List String → Option Given
  | none, [] => some []
  | some _, [] => none
  | some opt, argument :: rest =>
    if looksLikeOption argument then none
    else do return (opt, argument) :: (← readOptions allowed none rest)
  | none, argument :: rest =>
    match argument.toList with
    -- The end of the options; all values belong to options, so nothing may follow.
    | ['-', '-'] => if rest.isEmpty then some [] else none
    | '-' :: '-' :: cs => do
      let a ← readLong allowed cs
      return a.given ++ (← readOptions allowed a.waiting rest)
    | '-' :: c :: cs => do
      let a ← readLetters allowed (c :: cs)
      return a.given ++ (← readOptions allowed a.waiting rest)
    | _ => none

/-! ## Commands -/

def value? (given : Given) (opt : Opt) : Option String := given.lookup opt

/-- No option twice, and no path empty. -/
def wellGiven (given : Given) : Bool :=
  (given.map (·.1)).Nodup && given.all fun (opt, value) => !(opt.isPath && value.isEmpty)

def files? (given : Given) : Option Files := do
  return ⟨← value? given .schema, ← value? given .input, value? given .output⟩

/-- A passphrase and a key id exclude each other; settings are of use only with a key id, and without
effect beside a passphrase. -/
def keyChoice? (given : Given) : Option KeyChoice :=
  let choice : KeyChoice := ⟨value? given .key, value? given .keyId, value? given .config⟩
  match choice with
  | ⟨some _, some _, _⟩ => none
  | ⟨none, none, some _⟩ => none
  | choice => some choice

def commandOptions : List Opt := [.verbose, .schema, .input, .output, .key, .keyId, .config]

/-- The command of a name with its arguments. -/
def readCommand (name : String) (arguments : List String) : Option Command := do
  let read (allowed : List Opt) : Option Given := do
    let given ← readOptions allowed none arguments
    if wellGiven given then some given else none
  if name = "encrypt" then
    let given ← read commandOptions
    return .encrypt (← files? given) (← keyChoice? given)
  else if name = "decrypt" then
    let given ← read commandOptions
    return .decrypt (← files? given) (← keyChoice? given)
  else if name = "inspect" then
    let given ← read [.verbose, .schema]
    return .inspect (← value? given .schema)
  else if name = "validate" then
    let given ← read [.verbose, .schema, .data]
    return .validate (← value? given .schema) (value? given .data)
  else none

/-- What the letters of an argument before the command ask for: whether `v` is among them, or that
the version is to be shown. -/
def readLeadingLetters (verbose : Bool) : List Char → Option (Except Unit Bool)
  | [] => some (.ok verbose)
  | 'V' :: _ => some (.error ())
  | 'v' :: rest => if verbose then none else readLeadingLetters true rest
  | _ :: _ => none

/-- What the arguments ask for, if they are in order; `verbose` tells whether that was given. -/
def readFrom (verbose : Bool) : List String → Option Request
  | [] => none
  | argument :: rest =>
    if argument = "--version" then some .version
    else if argument = "--verbose" then
      if verbose then none else readFrom true rest
    else
      match argument.toList with
      | '-' :: '-' :: _ => none
      | '-' :: c :: cs =>
        match readLeadingLetters verbose (c :: cs) with
        | some (.ok verbose) => readFrom verbose rest
        | some (.error ()) => some .version
        | none => none
      | _ => (readCommand argument rest).map .command

/-- What the arguments ask for; nothing if they are not in order. -/
def Request.ofArguments? (arguments : List String) : Option Request := readFrom false arguments

end FieldSeal.Cli
