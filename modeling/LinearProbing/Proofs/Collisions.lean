import LinearProbing.Fnv.Basic
import LinearProbing.Table.Basic
import Mathlib.Logic.Function.Basic

set_option autoImplicit false

/-!
# Collisions that cannot be

A byte enters the accumulator by an exclusive or and a multiplication by an odd number, and both can be
undone. The last bits of a product depend on the last bits of its factors alone, so both can be undone
within the last `w` bits as well, whatever `w` is. Hence nothing that the accumulator held is lost, not
even in a stored hash, where the occupancy mark takes the place of the first bit.
-/

namespace LinearProbing

/-- The last `w` bits of a hash. -/
def lowBits (w : Nat) (hash : UInt32) : BitVec w := hash.toBitVec.setWidth w

theorem lowBits_markHash (hash : UInt32) : lowBits 31 (markHash hash) = lowBits 31 hash := by
  have hmark : occupancyMark.toBitVec.setWidth 31 = 0#31 := by decide
  rw [lowBits, markHash, UInt32.toBitVec_or, BitVec.setWidth_or, hmark, BitVec.or_zero]
  rfl

theorem markHash_eq_iff {hash hash' : UInt32} :
    markHash hash = markHash hash' ↔ lowBits 31 hash = lowBits 31 hash' := by
  constructor
  · intro h
    rw [← lowBits_markHash, h, lowBits_markHash]
  · intro h
    apply UInt32.toBitVec_inj.1
    apply BitVec.eq_of_getLsbD_eq
    intro i hi
    rw [markHash, markHash, UInt32.toBitVec_or, UInt32.toBitVec_or, BitVec.getLsbD_or,
      BitVec.getLsbD_or]
    by_cases hlast : i = 31
    · have hmark : occupancyMark.toBitVec.getLsbD 31 = true := by decide
      rw [hlast, hmark, Bool.or_true, Bool.or_true]
    · have hbit := congrArg (fun l : BitVec 31 => l.getLsbD i) h
      have hlt : i < 31 := by omega
      simp only [lowBits, BitVec.getLsbD_setWidth, hlt, decide_true, Bool.true_and] at hbit
      rw [hbit]

namespace Fnv

variable {w : Nat}

theorem lowBits_mul (hw : w ≤ 32) (x y : UInt32) : lowBits w (x * y) = lowBits w x * lowBits w y := by
  rw [lowBits, UInt32.toBitVec_mul, BitVec.setWidth_mul _ _ hw]
  rfl

/-- What a byte makes of the last bits of an accumulator. -/
def mix (l : BitVec w) (b : UInt8) : BitVec w := (l ^^^ b.toBitVec.setWidth w) * lowBits w prime

/-- The number that undoes a multiplication by `prime`. -/
def primeInverse : UInt32 := 0x359c449b

def unmix (l : BitVec w) (b : UInt8) : BitVec w :=
  l * lowBits w primeInverse ^^^ b.toBitVec.setWidth w

theorem lowBits_addUInt8 (hw : w ≤ 32) (h : UInt32) (b : UInt8) :
    lowBits w (addUInt8 h b) = mix (lowBits w h) b := by
  rw [addUInt8, lowBits_mul hw, mix, lowBits, UInt32.toBitVec_xor, BitVec.setWidth_xor,
    UInt8.toBitVec_toUInt32, BitVec.setWidth_setWidth_of_le _ hw]
  rfl

theorem lowBits_addBytes (hw : w ≤ 32) (h : UInt32) (bs : List UInt8) :
    lowBits w (addBytes h bs) = bs.foldl mix (lowBits w h) := by
  induction bs generalizing h with
  | nil => rfl
  | cons b bs ih => rw [addBytes_cons, ih, lowBits_addUInt8 hw, List.foldl_cons]

theorem lowBits_prime_mul_inverse (hw : w ≤ 32) :
    lowBits w prime * lowBits w primeInverse = 1#w := by
  have hone : prime * primeInverse = 1 := by decide
  rw [← lowBits_mul hw, hone, lowBits]
  apply BitVec.eq_of_toNat_eq
  simp

theorem unmix_mix (hw : w ≤ 32) (l : BitVec w) (b : UInt8) : unmix (mix l b) b = l := by
  rw [unmix, mix, BitVec.mul_assoc, lowBits_prime_mul_inverse hw, BitVec.mul_one, BitVec.xor_assoc,
    BitVec.xor_self, BitVec.xor_zero]

theorem mix_unmix (hw : w ≤ 32) (l : BitVec w) (b : UInt8) : mix (unmix l b) b = l := by
  rw [mix, unmix, BitVec.xor_assoc, BitVec.xor_self, BitVec.xor_zero, BitVec.mul_assoc,
    BitVec.mul_comm (lowBits w primeInverse), lowBits_prime_mul_inverse hw, BitVec.mul_one]

theorem eq_of_mix_eq (hle : 8 ≤ w) (hw : w ≤ 32) {l : BitVec w} {b c : UInt8}
    (h : mix l b = mix l c) : b = c := by
  -- undoing the multiplication leaves the bits of both bytes under the same mask
  have hmask : l ^^^ b.toBitVec.setWidth w = l ^^^ c.toBitVec.setWidth w := by
    have hprod := congrArg (· * lowBits w primeInverse) h
    simpa only [mix, BitVec.mul_assoc, lowBits_prime_mul_inverse hw, BitVec.mul_one] using hprod
  have hbyte := congrArg (BitVec.setWidth 8) ((BitVec.xor_right_inj l).1 hmask)
  rw [BitVec.setWidth_setWidth_of_le _ hle, BitVec.setWidth_setWidth_of_le _ hle, BitVec.setWidth_eq,
    BitVec.setWidth_eq] at hbyte
  exact UInt8.toBitVec_inj.1 hbyte

theorem mix_bijective (hw : w ≤ 32) (b : UInt8) : Function.Bijective fun l : BitVec w => mix l b :=
  Function.bijective_iff_has_inverse.2
    ⟨fun l => unmix l b, fun l => unmix_mix hw l b, fun l => mix_unmix hw l b⟩

theorem foldl_mix_bijective (hw : w ≤ 32) (bs : List UInt8) :
    Function.Bijective fun l : BitVec w => bs.foldl mix l := by
  induction bs with
  | nil => exact Function.bijective_id
  | cons b bs ih => exact ih.comp (mix_bijective hw b)

/-- Bytes that follow neither make hashes agree nor tell them apart. -/
theorem lowBits_addBytes_inj (hw : w ≤ 32) {h h' : UInt32} (bs : List UInt8) :
    lowBits w (addBytes h bs) = lowBits w (addBytes h' bs) ↔ lowBits w h = lowBits w h' := by
  rw [lowBits_addBytes hw, lowBits_addBytes hw]
  exact (foldl_mix_bijective hw bs).injective.eq_iff

theorem lowBits_32_inj {h h' : UInt32} : lowBits 32 h = lowBits 32 h' ↔ h = h' := by
  rw [lowBits, lowBits, BitVec.setWidth_eq, BitVec.setWidth_eq, UInt32.toBitVec_inj]

theorem addBytes_inj {h h' : UInt32} (bs : List UInt8) : addBytes h bs = addBytes h' bs ↔ h = h' := by
  rw [← lowBits_32_inj, lowBits_addBytes_inj (Nat.le_refl 32), lowBits_32_inj]

theorem addBytes_bijective (bs : List UInt8) : Function.Bijective fun h => addBytes h bs := by
  refine ⟨fun h h' => (addBytes_inj bs).1, fun hash => ?_⟩
  obtain ⟨l, hl⟩ := (foldl_mix_bijective (Nat.le_refl 32) bs).surjective (lowBits 32 hash)
  refine ⟨.ofBitVec l, lowBits_32_inj.1 ?_⟩
  rw [lowBits_addBytes (Nat.le_refl 32), ← hl, lowBits, BitVec.setWidth_eq]

/-- Two lists of bytes that are equally long and differ in exactly one place. -/
structure DifferOnce (bs cs : List UInt8) : Prop where
  length_eq : bs.length = cs.length
  place : ∃! i : Nat, bs[i]? ≠ cs[i]?

theorem DifferOnce.exists_split {bs cs : List UInt8} (h : DifferOnce bs cs) :
    ∃ front b c back, b ≠ c ∧ bs = front ++ b :: back ∧ cs = front ++ c :: back := by
  obtain ⟨hlen, i, hne, hunique⟩ := h
  have hagree : ∀ j, j ≠ i → bs[j]? = cs[j]? := fun j hj => by
    by_contra hdiffer
    exact hj (hunique j hdiffer)
  have hi : i < bs.length := by
    by_contra hge
    rw [List.getElem?_eq_none (by omega), List.getElem?_eq_none (by omega)] at hne
    exact hne rfl
  have hi' : i < cs.length := hlen ▸ hi
  have hfront : bs.take i = cs.take i := by
    apply List.ext_getElem?
    intro j
    rw [List.getElem?_take, List.getElem?_take]
    split
    · exact hagree j (by omega)
    · rfl
  have hback : bs.drop (i + 1) = cs.drop (i + 1) := by
    apply List.ext_getElem?
    intro j
    rw [List.getElem?_drop, List.getElem?_drop]
    exact hagree _ (by omega)
  refine ⟨bs.take i, bs[i], cs[i], bs.drop (i + 1), ?_, ?_, ?_⟩
  · intro heq
    rw [List.getElem?_eq_getElem hi, List.getElem?_eq_getElem hi', heq] at hne
    exact hne rfl
  · rw [← List.drop_eq_getElem_cons hi, List.take_append_drop]
  · rw [hfront, hback, ← List.drop_eq_getElem_cons hi', List.take_append_drop]

theorem DifferOnce.lowBits_ne {bs cs : List UInt8} (hdiffer : DifferOnce bs cs) (hle : 8 ≤ w)
    (hw : w ≤ 32) (h : UInt32) : lowBits w (addBytes h bs) ≠ lowBits w (addBytes h cs) := by
  obtain ⟨front, b, c, back, hne, rfl, rfl⟩ := hdiffer.exists_split
  intro heq
  rw [addBytes_append, addBytes_append, addBytes_cons, addBytes_cons, lowBits_addBytes_inj hw,
    lowBits_addUInt8 hw, lowBits_addUInt8 hw] at heq
  exact hne (eq_of_mix_eq hle hw heq)

/-- Hashing loses nothing of the accumulator, and nothing of the 31 bits of it that a stored hash keeps.
So contents that differ in one byte never have the same stored hash, and a common end never makes the
hashes of two contents collide. -/
theorem accumulator_kept :
    (∀ bs : List UInt8, Function.Bijective fun h => addBytes h bs) ∧
    (∀ bs : List UInt8, ∃ f : BitVec 31 → BitVec 31, Function.Bijective f ∧
      ∀ h, lowBits 31 (addBytes h bs) = f (lowBits 31 h)) ∧
    (∀ (h : UInt32) (bs cs : List UInt8), DifferOnce bs cs →
      lowBits 31 (addBytes h bs) ≠ lowBits 31 (addBytes h cs) ∧
      markHash (addBytes h bs) ≠ markHash (addBytes h cs)) ∧
    (∀ (h : UInt32) (s s' : String), DifferOnce (utf8Bytes s) (utf8Bytes s') →
      markHash (addString h s) ≠ markHash (addString h s')) ∧
    ∀ (h h' : UInt32) (bs cs back : List UInt8),
      (addBytes h (bs ++ back) = addBytes h' (cs ++ back) ↔ addBytes h bs = addBytes h' cs) ∧
      (markHash (addBytes h (bs ++ back)) = markHash (addBytes h' (cs ++ back)) ↔
        markHash (addBytes h bs) = markHash (addBytes h' cs)) := by
  have hbits : (31 : Nat) ≤ 32 := by decide
  have hdiffer : ∀ (h : UInt32) (bs cs : List UInt8), DifferOnce bs cs →
      lowBits 31 (addBytes h bs) ≠ lowBits 31 (addBytes h cs) :=
    fun h bs cs hone => hone.lowBits_ne (by decide) hbits h
  refine ⟨addBytes_bijective, fun bs => ?_, fun h bs cs hone => ?_, fun h s s' hone => ?_,
    fun h h' bs cs back => ?_⟩
  · exact ⟨_, foldl_mix_bijective hbits bs, fun h => lowBits_addBytes hbits h bs⟩
  · exact ⟨hdiffer h bs cs hone, fun heq => hdiffer h bs cs hone (markHash_eq_iff.1 heq)⟩
  · exact fun heq => hdiffer h _ _ hone (markHash_eq_iff.1 heq)
  · rw [markHash_eq_iff, markHash_eq_iff, addBytes_append, addBytes_append]
    exact ⟨addBytes_inj back, lowBits_addBytes_inj hbits back⟩

/-- Two texts that differ in one bit of the letter in the middle. -/
theorem accumulator_kept_one_letter :
    DifferOnce (utf8Bytes "a1b") (utf8Bytes "a3b") ∧
      markHash (addString seed "a1b") ≠ markHash (addString seed "a3b") ∧
      lowBits 31 (addBytes seed (utf8Bytes "a1b")) ≠ lowBits 31 (addBytes seed (utf8Bytes "a3b")) := by
  have hone : DifferOnce (utf8Bytes "a1b") (utf8Bytes "a3b") := by
    refine ⟨by decide, 1, by decide, ?_⟩
    rintro (_ | _ | _ | i) hi
    · exact absurd rfl hi
    · rfl
    · exact absurd rfl hi
    · exact absurd rfl hi
  obtain ⟨-, -, hbytes, htexts, -⟩ := accumulator_kept
  exact ⟨hone, htexts seed _ _ hone, (hbytes seed _ _ hone).1⟩

end Fnv

end LinearProbing
