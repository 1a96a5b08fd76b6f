import FieldSeal.Cipher.Text
import FieldSeal.Keys
import FieldSeal.Wire.Encode

/-!
# Messages

A message is a value with headers. Before it is sent, the tagged strings of its record are encrypted
under the key that a header names; when it arrives they are decrypted. A message whose value is not a
record, or without the header, passes as it is.

`produce` and `consume` change the message in place, so a failure leaves it as far as the walk came.
`encode` and `decode` go to bytes and back: what is encoded has been produced first, and what is
decoded is consumed, and comes out only if that went well.
-/

set_option autoImplicit false

namespace FieldSeal

structure Message where
  headers : Table String
  value : Value

/-- How messages get their keys: the header with the key id, and where the keys are. -/
structure KeyPolicy where
  header : String
  source : KeySource

namespace Message

/-- What is left after a message has been worked on. -/
structure Processed where
  message : Message
  index : FieldIndex
  failure : Option Failure

/-- The record and the passphrase to work with, unless the message passes as it is. -/
def subject? (policy : KeyPolicy) (m : Message) : Except KeyError (Option (Record × String)) :=
  match m.value, Table.get? policy.header m.headers with
  | .record r, some id => (policy.source.key id).map fun passphrase => some (r, passphrase)
  | _, _ => .ok none

/-- Encrypts or decrypts the record of a message. -/
def process (direction : Direction) (policy : KeyPolicy) (nonces : Nat → Nonce) (m : Message)
    (index : FieldIndex) : Processed :=
  match m.subject? policy with
  | .error e => ⟨m, index, some (.key e)⟩
  | .ok none => ⟨m, index, none⟩
  | .ok (some (r, passphrase)) =>
    let walk := ((TextCipher.ofPassphrase passphrase).withNonces nonces).walk direction
    let outcome := walk.runRecord r index
    ⟨{ m with value := .record outcome.value }, outcome.trace.index,
      outcome.failure.map .cipher⟩

def produce := process .encrypt

def consume := process .decrypt

/-- Produces a message and writes its value; the message keeps what producing has done even if
writing fails. -/
def encode (s : Schema) (policy : KeyPolicy) (nonces : Nat → Nonce) (m : Message)
    (index : FieldIndex) : Processed × Except Failure (List UInt8) :=
  let processed := m.produce policy nonces index
  match processed.failure with
  | some e => (processed, .error e)
  | none => (processed, s.encode processed.message.value)

/-- Reads a value and consumes the message. -/
def decode (s : Schema) (policy : KeyPolicy) (nonces : Nat → Nonce) (headers : Table String)
    (payload : List UInt8) (index : FieldIndex) : FieldIndex × Except Failure Message :=
  match s.decode payload with
  | .error e => (index, .error (.codec e))
  | .ok v =>
    let processed := consume policy nonces ⟨headers, v⟩ index
    match processed.failure with
    | some e => (processed.index, .error e)
    | none => (processed.index, .ok processed.message)

end Message

end FieldSeal
