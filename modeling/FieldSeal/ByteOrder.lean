/-!
# Numbers as bytes

A natural number in a given count of bytes, with the lowest byte first or with the highest first, and
the number of such bytes.
-/

set_option autoImplicit false

namespace FieldSeal.ByteOrder

/-- The bytes of a number in a given width, the lowest first. -/
def little : Nat → Nat → List UInt8
  | 0, _ => []
  | width + 1, n => UInt8.ofNat (n % 256) :: little width (n / 256)

/-- The number whose bytes these are, the lowest first. -/
def ofLittle : List UInt8 → Nat
  | [] => 0
  | b :: rest => b.toNat + 256 * ofLittle rest

/-- The bytes of a number in a given width, the highest first. -/
def big (width n : Nat) : List UInt8 := (little width n).reverse

/-- The number whose bytes these are, the highest first. -/
def ofBig (bytes : List UInt8) : Nat := ofLittle bytes.reverse

@[simp] theorem length_little (width n : Nat) : (little width n).length = width := by
  induction width generalizing n with
  | zero => rfl
  | succ width ih => simp [little, ih]

@[simp] theorem length_big (width n : Nat) : (big width n).length = width := by
  simp [big]

end FieldSeal.ByteOrder
