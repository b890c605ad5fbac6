set_option autoImplicit false

/-!
# Chunks of content

What is hashed reaches a hasher in chunks: runs of bytes and integers of several widths. A chunk stands
for its bytes, and an integer for its two's complement digits, most significant byte first.
-/

namespace LinearProbing

/-- The last `width` base 256 digits of a number, most significant first. -/
def bigEndian : (width n : Nat) → List UInt8
  | 0, _ => []
  | width + 1, n => UInt8.ofNat (n / Nat.pow 256 width) :: bigEndian width n

def littleEndian (width n : Nat) : List UInt8 := (bigEndian width n).reverse

/-- The two's complement digits of an integer in `width` bytes, most significant first. -/
def twosComplement (width : Nat) (i : Int) : List UInt8 :=
  bigEndian width (i % (Nat.pow 256 width : Nat)).toNat

def utf8Bytes (s : String) : List UInt8 := s.toUTF8.data.toList

/-- One piece of content as it is handed to a hasher. -/
inductive Chunk where
  | bytes (bs : List UInt8)
  | uint8 (x : UInt8)
  | uint16 (x : UInt16)
  | uint32 (x : UInt32)
  | uint64 (x : UInt64)
  | uint128 (x : BitVec 128)
  | size (x : UInt64)
  | int8 (x : Int8)
  | int16 (x : Int16)
  | int32 (x : Int32)
  | int64 (x : Int64)
  | int128 (x : BitVec 128)
  | signedSize (x : Int64)

def Chunk.encoding : Chunk → List UInt8
  | .bytes bs => bs
  | .uint8 x => bigEndian 1 x.toNat
  | .uint16 x => bigEndian 2 x.toNat
  | .uint32 x => bigEndian 4 x.toNat
  | .uint64 x => bigEndian 8 x.toNat
  | .uint128 x => bigEndian 16 x.toNat
  | .size x => bigEndian 8 x.toNat
  | .int8 x => twosComplement 1 x.toInt
  | .int16 x => twosComplement 2 x.toInt
  | .int32 x => twosComplement 4 x.toInt
  | .int64 x => twosComplement 8 x.toInt
  | .int128 x => twosComplement 16 x.toInt
  | .signedSize x => twosComplement 8 x.toInt

end LinearProbing
