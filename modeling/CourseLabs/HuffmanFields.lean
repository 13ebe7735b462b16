/-
`CSMCS26A017_Lab2_2.c`: bits and fields, written one after the other and read back.

The writer counts the places it has filled in a byte, the reader the bits that are left in
one. Neither count appears here: a field is a string of bits (`Field.string`), which the
writer puts behind those before it and the reader takes off the front, wherever in a byte
it falls. The flush adds zeros up to the next byte, and they are all that is left to read.
-/
import CourseLabs.HuffmanBits

set_option autoImplicit false

namespace CourseLabs.Huffman

open CourseLabs.BitString

/-! ## Calls in sequence -/

/-- A call of the writer: `writeBit`, or `writeBits` with a width it has bits for. -/
inductive Field where
  | bit (b : ℤ)
  | bits (val : UInt32) (numBits : ℕ) (pos : 1 ≤ numBits) (le_max : numBits ≤ 32)

/-- What the matching call of the reader returns: `readBit` a bit, `readBits` what it leaves
in `*val` or its error. -/
inductive Answer where
  | bit (b : ℤ)
  | bits (result : Except ℤ ℕ)

namespace Field

def write (bw : BitWriter) : Field → BitWriter
  | .bit b => writeBit bw b
  | .bits val numBits _ _ => writeBits bw val.toNat numBits

def read (br : BitReader) : Field → Answer × BitReader
  | .bit _ =>
    let (b, br) := readBit br
    (.bit b, br)
  | .bits _ numBits _ _ =>
    let (result, br) := readBits br numBits 0
    (.bits result, br)

/-- What should be read back: a bit, or the low bits of the value that the width has room for. -/
def answer : Field → Answer
  | .bit b => .bit (if b ≠ 0 then 1 else 0)
  | .bits val numBits _ _ => .bits (.ok (val.toNat % 2 ^ numBits))

def width : Field → ℕ
  | .bit _ => 1
  | .bits _ numBits _ _ => numBits

/-- The bits of a field, the most significant first. -/
def string : Field → List Bool
  | .bit b => [decide (b ≠ 0)]
  | .bits val numBits _ _ => lowBits val.toNat numBits

end Field

section Fields

variable {bw : BitWriter} {br : BitReader} {base : List UInt8} {bits rest : List Bool}

end Fields

end CourseLabs.Huffman
