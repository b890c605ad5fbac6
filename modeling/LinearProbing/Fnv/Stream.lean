import LinearProbing.Fnv.Basic

set_option autoImplicit false

/-!
# Hashing a stream

A stream takes chunks in as they come and can be asked for its hash at any time.
-/

namespace LinearProbing.Fnv

structure Stream where
  state : UInt32

namespace Stream

def fresh : Stream := ⟨seed⟩

def write (s : Stream) (chunk : Chunk) : Stream := ⟨addChunk s.state chunk⟩

def writeAll (s : Stream) (chunks : List Chunk) : Stream := chunks.foldl write s

def finish32 (s : Stream) : UInt32 := s.state

def finish (s : Stream) : UInt64 := s.state.toUInt64

end Stream

end LinearProbing.Fnv
