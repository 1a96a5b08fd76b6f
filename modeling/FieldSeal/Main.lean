import FieldSeal.Cli.Directory

/-!
# The program

The commands over the file system. Exit codes: 0 when the command went through, 1 when it ended with
a complaint, 2 when the arguments were not in order.
-/

set_option autoImplicit false

namespace FieldSeal.Cli

def systemCode? : IO.Error → Option UInt32
  | .noFileOrDirectory _ code _ => some code
  | .permissionDenied _ code _ => some code
  | .inappropriateType _ code _ => some code
  | .invalidArgument _ code _ => some code
  | .noSuchThing _ code _ => some code
  | .resourceExhausted _ code _ => some code
  | _ => none

def reason (e : IO.Error) : String :=
  -- Some actions give the number with a minus sign.
  match (systemCode? e).bind fun code => FileFault.ofCode? code.toInt32.toInt.natAbs with
  | some fault => fault.message
  | none => toString e

/-- An action on the file system, with its failure as a reason. -/
def attempt {α : Type} (action : IO α) : IO (Except String α) := do
  try return .ok (← action)
  catch e => return .error (reason e)

def randomNonce : IO Nonce := do
  let bytes ← IO.getRandomBytes 12
  match Nonce.split? bytes.data.toList with
  | some (nonce, _) => return nonce
  | none => throw (IO.userError "no random bytes")

/-- Random nonces for so many calls, each drawn by itself. Those after them count up from one more,
and no run takes one of them (`goes_sealFile_congr`). -/
def randomNonces (count : Nat) : IO (Nat → Nonce) := do
  let drawn ← (Array.range count).mapM fun _ => randomNonce
  let last ← randomNonce
  return fun n => drawn.getD n (last.countFrom n)

def fileHost : Host IO where
  read path := attempt (IO.FS.readFile path)
  write path text := attempt (IO.FS.writeFile path text)
  print text := do
    let out ← IO.getStdout
    out.putStr text
  nonces := randomNonces

end FieldSeal.Cli

def main (arguments : List String) : IO UInt32 := do
  match ← FieldSeal.Cli.run FieldSeal.Cli.fileHost arguments with
  | .success => return 0
  | .failure complaint =>
    IO.eprintln ("Error: " ++ complaint.headline)
    if complaint.context.isSome then IO.eprintln ("  " ++ complaint.cause)
    return 1
  | .usage =>
    IO.eprintln "usage: shred [-v] encrypt|decrypt -s SCHEMA -i INPUT [-o OUTPUT] [-k KEY | --key-id ID [-c CONFIG]]"
    IO.eprintln "       shred [-v] inspect -s SCHEMA"
    IO.eprintln "       shred [-v] validate -s SCHEMA [-d DATA]"
    return 2
