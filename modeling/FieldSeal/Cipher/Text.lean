import FieldSeal.Cipher.Aes256
import FieldSeal.Cipher.Base64
import FieldSeal.Cipher.Gcm
import FieldSeal.Cipher.Sha256
import FieldSeal.Error
import FieldSeal.Utf8
import FieldSeal.Walk

/-!
# Sealing texts under a passphrase

The key is the digest of the passphrase. A sealed text is a frame in base64: the nonce, the encrypted
bytes of the text, and the tag. Opening tells apart a text that is no frame, a frame that was not
sealed under the key, and sealed bytes that are no text.
-/

set_option autoImplicit false

namespace FieldSeal

def Nonce.length : Nat := 12

/-- Splits a frame into its nonce and the sealed bytes. -/
def Nonce.split? (frame : List UInt8) : Option (Nonce × List UInt8) :=
  if h : Nonce.length ≤ frame.length then
    some (⟨(frame.take Nonce.length).toArray, by simp [Nonce.length] at h ⊢; omega⟩,
      frame.drop Nonce.length)
  else none

/-- The nonces that count up from a first one, in its last four bytes. -/
def Nonce.countFrom (first : Nonce) (n : Nat) : Nonce :=
  let start := ByteOrder.ofBig (first.toList.drop 8)
  let bytes := first.toList.take 8 ++ ByteOrder.big 4 (start + n)
  ⟨bytes.toArray, by simp [bytes]⟩

/-- A block function, by which texts are sealed. -/
structure TextCipher where
  block : Block → Block

namespace TextCipher

def ofPassphrase (passphrase : String) : TextCipher :=
  ⟨Aes256.cipher (Sha256.digest (Utf8.encode passphrase))⟩

variable (c : TextCipher)

def sealText (nonce : Nonce) (text : String) : Except CipherError String :=
  match Gcm.seal? c.block nonce (Utf8.encode text) with
  | some bytes => .ok (Base64.encode (nonce.toList ++ bytes))
  | none => .error .unauthentic

def openText (text : String) : Except CipherError String :=
  match Base64.decode? text with
  | none => .error (.malformed .notBase64)
  | some frame =>
    match Nonce.split? frame with
    | none => .error (.malformed (.shortFrame frame.length))
    | some (nonce, bytes) =>
      match Gcm.open? c.block nonce bytes with
      | none => .error .unauthentic
      | some data =>
        match Utf8.decode? data with
        | some text => .ok text
        | none => .error .notText

/-- The cipher with a nonce for each call. -/
def withNonces (nonces : Nat → Nonce) : Cipher where
  encrypt n := c.sealText (nonces n)
  decrypt := c.openText

end TextCipher

end FieldSeal
