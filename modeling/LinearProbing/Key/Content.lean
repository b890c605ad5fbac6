import LinearProbing.Hasher
import LinearProbing.Key.Record
import LinearProbing.Key.Wide

set_option autoImplicit false

/-!
# The content of keys

A key is hashed through its content, a list of chunks. A list puts its length in front, so that lists
of lists keep their borders, and a text puts a byte behind that occurs in no text. The elements of a
list of integers go in as one run of bytes, least significant byte first.
-/

namespace LinearProbing

class Content (K : Type) where
  chunks : K → List Chunk
  rowChunks : List K → List Chunk := fun keys => keys.flatMap chunks

namespace Content

variable {K L : Type}

def hashWith [Content K] (hasher : Hasher) (key : K) : UInt64 := hasher.run (chunks key)

@[reducible] private def ofWidth (width : Nat) (toNat : K → Nat) (chunk : K → Chunk) : Content K where
  chunks key := [chunk key]
  rowChunks keys := [.bytes (keys.flatMap fun key => littleEndian width (toNat key))]

instance : Content UInt8 := ofWidth 1 UInt8.toNat .uint8

instance : Content UInt16 := ofWidth 2 UInt16.toNat .uint16

instance : Content UInt32 := ofWidth 4 UInt32.toNat .uint32

instance : Content UInt64 := ofWidth 8 UInt64.toNat .uint64

instance : Content UInt128 := ofWidth 16 UInt128.toNat fun x => .uint128 x.bits

instance : Content Int8 := ofWidth 1 (fun x => x.toUInt8.toNat) .int8

instance : Content Int16 := ofWidth 2 (fun x => x.toUInt16.toNat) .int16

instance : Content Int32 := ofWidth 4 (fun x => x.toUInt32.toNat) .int32

instance : Content Int64 := ofWidth 8 (fun x => x.toUInt64.toNat) .int64

instance : Content Int128 := ofWidth 16 (fun x => x.bits.toNat) fun x => .int128 x.bits

instance : Content Bool where
  chunks b := [.uint8 b.toUInt8]

instance : Content Char where
  chunks c := [.uint32 c.val]

instance : Content String where
  chunks s := [.bytes (utf8Bytes s), .uint8 0xff]

instance : Content Unit where
  chunks _ := []

instance [Content K] : Content (List K) where
  chunks keys := .size (UInt64.ofNat keys.length) :: rowChunks keys

instance [Content K] : Content (Option K) where
  chunks
    | none => [.signedSize 0]
    | some key => .signedSize 1 :: chunks key

instance [Content K] [Content L] : Content (K × L) where
  chunks pair := chunks pair.1 ++ chunks pair.2

instance : Content Record where
  chunks r := [.uint32 r.id]

end Content

end LinearProbing
