import LinearProbing.Fnv.Stream

set_option autoImplicit false

/-!
# Hashers

A hasher turns the chunks of a content into a 64-bit hash. Beside FNV-1a there are two poor hashers,
under which keys collide on purpose.
-/

namespace LinearProbing

inductive Hasher where
  | fnv
  /-- The same hash for everything. -/
  | const (value : UInt64)
  /-- The sum of all bytes, modulo `modulus`. -/
  | sumMod (modulus : UInt64)
  deriving DecidableEq, Repr

def Hasher.run : Hasher → List Chunk → UInt64
  | .fnv, chunks => (Fnv.Stream.fresh.writeAll chunks).finish
  | .const value, _ => value
  | .sumMod modulus, chunks =>
    ((chunks.flatMap Chunk.encoding).foldl (fun sum b => sum + b.toUInt64) 0) % modulus

end LinearProbing
