import LinearProbing.Fnv.Stream
import Mathlib.Algebra.Group.Nat.Defs

set_option autoImplicit false

/-!
# The hash of a stream depends on its bytes alone

However a content is cut into chunks, its hash is that of all its bytes in one run. An integer counts as
its big-endian two's complement digits at full width, because taking in its halves, the high one first,
is taking in these digits.
-/

namespace LinearProbing

theorem bigEndian_add (high low n : Nat) :
    bigEndian (high + low) n = bigEndian high (n / 256 ^ low) ++ bigEndian low n := by
  induction high with
  | zero => rw [Nat.zero_add, bigEndian, List.nil_append]
  | succ high ih =>
    have hdigit : n / Nat.pow 256 (high + low) = n / 256 ^ low / Nat.pow 256 high := by
      rw [Nat.pow_eq, Nat.pow_eq, Nat.div_div_eq_div_mul, ← Nat.pow_add, Nat.add_comm]
    rw [Nat.succ_add, bigEndian, bigEndian, ih, hdigit, List.cons_append]

theorem bigEndian_mod {width k : Nat} (h : width ≤ k) (n : Nat) :
    bigEndian width (n % 256 ^ k) = bigEndian width n := by
  induction width with
  | zero => rfl
  | succ width ih =>
    obtain ⟨j, rfl⟩ := Nat.exists_eq_add_of_le h
    have hsplit : 256 ^ (width + 1 + j) = 256 ^ width * (256 * 256 ^ j) := by
      rw [Nat.pow_add, Nat.pow_succ, Nat.mul_assoc]
    have hdigit : n % 256 ^ (width + 1 + j) / 256 ^ width % 256 = n / 256 ^ width % 256 := by
      rw [hsplit, Nat.mod_mul_right_div_self, Nat.mod_mul_right_mod]
    rw [bigEndian, bigEndian, ih (by omega), Nat.pow_eq]
    congr 1
    apply UInt8.toNat_inj.1
    rw [UInt8.toNat_ofNat', UInt8.toNat_ofNat']
    exact hdigit

theorem twosComplement_toInt (width : Nat) {bits : Nat} (h : 2 ^ bits = Nat.pow 256 width)
    (x : BitVec bits) : twosComplement width x.toInt = bigEndian width x.toNat := by
  have hrange : x.toInt % (2 ^ bits : Nat) = (x.toNat : Int) := by
    rw [BitVec.toInt_eq_toNat_bmod, Int.bmod_emod]
    exact Int.emod_eq_of_lt (Int.natCast_nonneg _) (Int.ofNat_lt.2 x.isLt)
  rw [twosComplement, ← h, hrange, Int.toNat_natCast]

namespace Fnv

theorem addBytes_halves (h : UInt32) (width n : Nat) :
    addBytes h (bigEndian (width + width) n) =
      addBytes (addBytes h (bigEndian width (n / 256 ^ width % 256 ^ width)))
        (bigEndian width (n % 256 ^ width)) := by
  rw [bigEndian_add, addBytes_append, bigEndian_mod (Nat.le_refl width),
    bigEndian_mod (Nat.le_refl width)]

theorem addUInt8_eq (h : UInt32) (x : UInt8) : addUInt8 h x = addBytes h (bigEndian 1 x.toNat) := by
  have hdigit : UInt8.ofNat (x.toNat / Nat.pow 256 0) = x := by
    rw [Nat.pow_eq, Nat.pow_zero, Nat.div_one, UInt8.ofNat_toNat]
  rw [bigEndian, bigEndian, hdigit, addBytes_cons, addBytes_nil]

theorem addUInt16_eq (h : UInt32) (x : UInt16) :
    addUInt16 h x = addBytes h (bigEndian 2 x.toNat) := by
  have hhigh : (x >>> 8).toUInt8.toNat = x.toNat / 256 ^ 1 % 256 ^ 1 := by
    simp [Nat.shiftRight_eq_div_pow]
  have hlow : x.toUInt8.toNat = x.toNat % 256 ^ 1 := by simp
  rw [addUInt16, addUInt8_eq, addUInt8_eq, hhigh, hlow]
  exact (addBytes_halves h 1 x.toNat).symm

theorem addUInt32_eq (h : UInt32) (x : UInt32) :
    addUInt32 h x = addBytes h (bigEndian 4 x.toNat) := by
  have hhigh : (x >>> 16).toUInt16.toNat = x.toNat / 256 ^ 2 % 256 ^ 2 := by
    simp [Nat.shiftRight_eq_div_pow]
  have hlow : x.toUInt16.toNat = x.toNat % 256 ^ 2 := by simp
  rw [addUInt32, addUInt16_eq, addUInt16_eq, hhigh, hlow]
  exact (addBytes_halves h 2 x.toNat).symm

theorem addUInt64_eq (h : UInt32) (x : UInt64) :
    addUInt64 h x = addBytes h (bigEndian 8 x.toNat) := by
  have hhigh : (x >>> 32).toUInt32.toNat = x.toNat / 256 ^ 4 % 256 ^ 4 := by
    simp [Nat.shiftRight_eq_div_pow]
  have hlow : x.toUInt32.toNat = x.toNat % 256 ^ 4 := by simp
  rw [addUInt64, addUInt32_eq, addUInt32_eq, hhigh, hlow]
  exact (addBytes_halves h 4 x.toNat).symm

theorem addUInt128_eq (h : UInt32) (x : BitVec 128) :
    addUInt128 h x = addBytes h (bigEndian 16 x.toNat) := by
  have hhigh : (UInt64.ofBitVec (x.extractLsb' 64 64)).toNat = x.toNat / 256 ^ 8 % 256 ^ 8 := by
    simp [Nat.shiftRight_eq_div_pow]
  have hlow : (UInt64.ofBitVec (x.extractLsb' 0 64)).toNat = x.toNat % 256 ^ 8 := by simp
  rw [addUInt128, addUInt64_eq, addUInt64_eq, hhigh, hlow]
  exact (addBytes_halves h 8 x.toNat).symm

/-- Taking in a chunk is taking in its bytes. -/
theorem addChunk_eq (h : UInt32) (chunk : Chunk) : addChunk h chunk = addBytes h chunk.encoding := by
  cases chunk with
  | bytes bs => rfl
  | uint8 x => exact addUInt8_eq h x
  | uint16 x => exact addUInt16_eq h x
  | uint32 x => exact addUInt32_eq h x
  | uint64 x => exact addUInt64_eq h x
  | uint128 x => exact addUInt128_eq h x
  | size x => exact addUInt64_eq h x
  -- a signed integer goes in as the unsigned one with the same bits
  | int8 x =>
    rw [addChunk, addUInt8_eq]
    exact congrArg (addBytes h) (twosComplement_toInt 1 rfl x.toBitVec).symm
  | int16 x =>
    rw [addChunk, addUInt16_eq]
    exact congrArg (addBytes h) (twosComplement_toInt 2 rfl x.toBitVec).symm
  | int32 x =>
    rw [addChunk, addUInt32_eq]
    exact congrArg (addBytes h) (twosComplement_toInt 4 rfl x.toBitVec).symm
  | int64 x =>
    rw [addChunk, addUInt64_eq]
    exact congrArg (addBytes h) (twosComplement_toInt 8 rfl x.toBitVec).symm
  | int128 x =>
    rw [addChunk, addUInt128_eq]
    exact congrArg (addBytes h) (twosComplement_toInt 16 rfl x).symm
  | signedSize x =>
    rw [addChunk, addUInt64_eq]
    exact congrArg (addBytes h) (twosComplement_toInt 8 rfl x.toBitVec).symm

/-- A value that is taken into an accumulator by a call of its own. A float comes as its bit pattern. -/
inductive Piece where
  | uint8 (x : UInt8)
  | uint16 (x : UInt16)
  | uint32 (x : UInt32)
  | uint64 (x : UInt64)
  | float32 (bits : UInt32)
  | float64 (bits : UInt64)
  | bytes (bs : List UInt8)
  | text (s : String)

namespace Piece

def add (h : UInt32) : Piece → UInt32
  | .uint8 x => addUInt8 h x
  | .uint16 x => addUInt16 h x
  | .uint32 x => addUInt32 h x
  | .uint64 x => addUInt64 h x
  | .float32 bits => addFloat32 h bits
  | .float64 bits => addFloat64 h bits
  | .bytes bs => addBytes h bs
  | .text s => addString h s

def encoding : Piece → List UInt8
  | .uint8 x => bigEndian 1 x.toNat
  | .uint16 x => bigEndian 2 x.toNat
  | .uint32 x => bigEndian 4 x.toNat
  | .uint64 x => bigEndian 8 x.toNat
  | .float32 bits => bigEndian 4 bits.toNat
  | .float64 bits => bigEndian 8 bits.toNat
  | .bytes bs => bs
  | .text s => utf8Bytes s

theorem add_eq (h : UInt32) (piece : Piece) : piece.add h = addBytes h piece.encoding := by
  cases piece with
  | uint8 x => exact addUInt8_eq h x
  | uint16 x => exact addUInt16_eq h x
  | uint32 x => exact addUInt32_eq h x
  | uint64 x => exact addUInt64_eq h x
  | float32 bits => exact addUInt32_eq h bits
  | float64 bits => exact addUInt64_eq h bits
  | bytes bs => rfl
  | text s => rfl

end Piece

theorem foldl_eq_addBytes {ι : Type} {step : UInt32 → ι → UInt32} {encoding : ι → List UInt8}
    (hstep : ∀ h item, step h item = addBytes h (encoding item)) (h : UInt32) (items : List ι) :
    items.foldl step h = addBytes h (items.flatMap encoding) := by
  induction items generalizing h with
  | nil => rfl
  | cons item items ih =>
    rw [List.foldl_cons, ih, hstep, List.flatMap_cons, addBytes_append]

theorem Stream.state_writeAll (s : Stream) (chunks : List Chunk) :
    (s.writeAll chunks).state = addBytes s.state (chunks.flatMap Chunk.encoding) := by
  rw [← foldl_eq_addBytes addChunk_eq]
  induction chunks generalizing s with
  | nil => rfl
  | cons chunk chunks ih => exact ih (s.write chunk)

/-- A stream hashes the bytes of its chunks in one run, so chunks of the same bytes have the same hash.
Likewise a chain of calls on an accumulator takes in the bytes of all its values in one run. -/
theorem hash_of_bytes :
    (∀ chunks : List Chunk,
      (Stream.fresh.writeAll chunks).state = addBytes seed (chunks.flatMap Chunk.encoding)) ∧
    (∀ s : Stream, s.finish32 = s.state ∧ s.finish = s.state.toUInt64) ∧
    (∀ chunks chunks' : List Chunk, chunks.flatMap Chunk.encoding = chunks'.flatMap Chunk.encoding →
      (Stream.fresh.writeAll chunks).finish32 = (Stream.fresh.writeAll chunks').finish32 ∧
      (Stream.fresh.writeAll chunks).finish = (Stream.fresh.writeAll chunks').finish) ∧
    ∀ (h : UInt32) (pieces : List Piece),
      pieces.foldl Piece.add h = addBytes h (pieces.flatMap Piece.encoding) := by
  refine ⟨Stream.fresh.state_writeAll, fun s => ⟨rfl, rfl⟩, fun chunks chunks' hbytes => ?_,
    foldl_eq_addBytes Piece.add_eq⟩
  have hstate : (Stream.fresh.writeAll chunks).state = (Stream.fresh.writeAll chunks').state := by
    rw [Stream.state_writeAll, Stream.state_writeAll, hbytes]
  exact ⟨hstate, congrArg UInt32.toUInt64 hstate⟩

/-- A negative number and one of 128 bits hash like a run of bytes and two numbers of 64 bits. -/
theorem hash_of_bytes_cut_elsewhere :
    [Chunk.int16 (-2), .uint128 7].flatMap Chunk.encoding =
      [Chunk.bytes [0xff, 0xfe], .uint64 0, .size 7].flatMap Chunk.encoding ∧
    (Stream.fresh.writeAll [.int16 (-2), .uint128 7]).finish32 =
      (Stream.fresh.writeAll [.bytes [0xff, 0xfe], .uint64 0, .size 7]).finish32 ∧
    (Stream.fresh.writeAll [.int16 (-2), .uint128 7]).finish =
      (Stream.fresh.writeAll [.bytes [0xff, 0xfe], .uint64 0, .size 7]).finish := by
  have hbytes : [Chunk.int16 (-2), .uint128 7].flatMap Chunk.encoding =
      [Chunk.bytes [0xff, 0xfe], .uint64 0, .size 7].flatMap Chunk.encoding := by decide
  obtain ⟨-, -, hcut, -⟩ := hash_of_bytes
  exact ⟨hbytes, hcut _ _ hbytes⟩

end Fnv

end LinearProbing
