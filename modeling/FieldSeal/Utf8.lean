/-!
# Texts as bytes

The bytes of a text and the text of bytes, over lists. A text has exactly one list of bytes, and
bytes that are no text have none.
-/

set_option autoImplicit false

namespace FieldSeal.Utf8

def encode (text : String) : List UInt8 := text.toByteArray.data.toList

def decode? (bytes : List UInt8) : Option String := String.fromUTF8? ⟨bytes.toArray⟩

@[simp] theorem decode?_encode (text : String) : decode? (encode text) = some text := by
  simp [decode?, encode, String.fromUTF8?, String.fromUTF8, text.isValidUTF8]

theorem encode_of_decode? {bytes : List UInt8} {text : String} (h : decode? bytes = some text) :
    encode text = bytes := by
  unfold decode? String.fromUTF8? at h
  split at h
  · simp only [Option.some.injEq] at h
    simp [encode, ← h, String.fromUTF8]
  · simp at h

end FieldSeal.Utf8
