import FieldSeal.Schema.Error

/-!
# Failures, by layer

One type per layer, with the causes as constructors: reading and writing values (`CodecError`),
sealing and opening texts (`CipherError`), finding a key (`KeyError`), and schemas and tags
(`SchemaError`). `Failure` is their sum, and its text names the layer.
-/

set_option autoImplicit false

namespace FieldSeal

/-- Why a value cannot be written or read. -/
inductive CodecError where
  | typeMismatch (expected actual : String)
  | missingField (name : String)
  | unexpectedEnd
  | invalidVarint
  | collectionTooLarge (count : Nat)
  | invalidUnionBranch (branch : String)
  | unknownSymbol (symbol : String)
  | invalidText
  | nonFinite (number : String)
  | trailingBytes (count : Nat)
  | io (reason : String)
deriving DecidableEq, Repr

def CodecError.message : CodecError → String
  | .typeMismatch expected actual => "Type mismatch: expected " ++ expected ++ ", got " ++ actual
  | .missingField name => "Missing field: " ++ name
  | .unexpectedEnd => "Unexpected end of input"
  | .invalidVarint => "Invalid varint"
  | .collectionTooLarge count =>
    "Collection of " ++ toString count ++ " items exceeds the decode limit"
  | .invalidUnionBranch branch => "Invalid union branch: " ++ branch
  | .unknownSymbol symbol => "Unknown enum symbol: " ++ symbol
  | .invalidText => "Invalid utf-8 in string payload"
  | .nonFinite number => "Non-finite float " ++ number ++ " has no JSON representation"
  | .trailingBytes count => toString count ++ " trailing bytes after value"
  | .io reason => "I/O error: " ++ reason

/-- Why a text is not of the form that a cipher gives its sealed texts. -/
inductive Malformation where
  | notBase64
  | shortFrame (length : Nat)
  | other (reason : String)
deriving DecidableEq, Repr

def Malformation.message : Malformation → String
  | .notBase64 => "not canonical base64"
  | .shortFrame length => toString length ++ " bytes is shorter than the nonce"
  | .other reason => reason

/-- Why a text cannot be sealed or opened. -/
inductive CipherError where
  | malformed (why : Malformation)
  | unauthentic
  | notText
deriving DecidableEq, Repr

def CipherError.message : CipherError → String
  | .malformed why => "ciphertext is not well formed: " ++ why.message
  | .unauthentic => "decryption failed"
  | .notText => "plaintext is not valid utf-8"

inductive KeyError where
  | notFound (id : String)
deriving DecidableEq, Repr

def KeyError.message : KeyError → String
  | .notFound id => "no key registered for id '" ++ id ++ "'"

inductive Failure where
  | schema (cause : SchemaError)
  | cipher (cause : CipherError)
  | codec (cause : CodecError)
  | key (cause : KeyError)
deriving DecidableEq, Repr

def Failure.message : Failure → String
  | .schema cause => "Schema type error: " ++ cause.message
  | .cipher cause => "Leaf transform failed: " ++ cause.message
  | .codec cause => "Codec error: " ++ cause.message
  | .key cause => "Key lookup failed: " ++ cause.message

end FieldSeal
