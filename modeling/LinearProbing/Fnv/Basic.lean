import LinearProbing.Fnv.Chunk

set_option autoImplicit false

/-!
# FNV-1a hashing

The 32-bit FNV-1a hash takes one byte at a time into an accumulator. Every function here takes one
value into an accumulator and answers the new one, so the hash of a compound value is a chain of calls
that starts from `seed`. An integer is split into halves, and the high half goes first; a float enters
by its bit pattern.
-/

namespace LinearProbing.Fnv

def seed : UInt32 := 0x811c9dc5

def prime : UInt32 := 0x01000193

def addUInt8 (h : UInt32) (x : UInt8) : UInt32 := (h ^^^ x.toUInt32) * prime

def addUInt16 (h : UInt32) (x : UInt16) : UInt32 := addUInt8 (addUInt8 h (x >>> 8).toUInt8) x.toUInt8

def addUInt32 (h : UInt32) (x : UInt32) : UInt32 :=
  addUInt16 (addUInt16 h (x >>> 16).toUInt16) x.toUInt16

def addUInt64 (h : UInt32) (x : UInt64) : UInt32 :=
  addUInt32 (addUInt32 h (x >>> 32).toUInt32) x.toUInt32

def addUInt128 (h : UInt32) (x : BitVec 128) : UInt32 :=
  addUInt64 (addUInt64 h (UInt64.ofBitVec (x.extractLsb' 64 64)))
    (UInt64.ofBitVec (x.extractLsb' 0 64))

def addFloat32 (h : UInt32) (bits : UInt32) : UInt32 := addUInt32 h bits

def addFloat64 (h : UInt32) (bits : UInt64) : UInt32 := addUInt64 h bits

def addBytes (h : UInt32) (bs : List UInt8) : UInt32 := bs.foldl addUInt8 h

/-- Takes in the UTF-8 bytes of a text, and nothing before or after them. -/
def addString (h : UInt32) (s : String) : UInt32 := addBytes h (utf8Bytes s)

/-- Takes in one chunk. A signed integer goes in as the unsigned one with the same bits. -/
def addChunk (h : UInt32) : Chunk → UInt32
  | .bytes bs => addBytes h bs
  | .uint8 x => addUInt8 h x
  | .uint16 x => addUInt16 h x
  | .uint32 x => addUInt32 h x
  | .uint64 x => addUInt64 h x
  | .uint128 x => addUInt128 h x
  | .size x => addUInt64 h x
  | .int8 x => addUInt8 h x.toUInt8
  | .int16 x => addUInt16 h x.toUInt16
  | .int32 x => addUInt32 h x.toUInt32
  | .int64 x => addUInt64 h x.toUInt64
  | .int128 x => addUInt128 h x
  | .signedSize x => addUInt64 h x.toUInt64

@[simp] theorem addBytes_nil (h : UInt32) : addBytes h [] = h := rfl

@[simp] theorem addBytes_cons (h : UInt32) (b : UInt8) (bs : List UInt8) :
    addBytes h (b :: bs) = addBytes (addUInt8 h b) bs := rfl

theorem addBytes_append (h : UInt32) (bs cs : List UInt8) :
    addBytes h (bs ++ cs) = addBytes (addBytes h bs) cs := List.foldl_append

end LinearProbing.Fnv
