set_option autoImplicit false

/-!
# Integers of 128 bits
-/

namespace LinearProbing

structure UInt128 where
  bits : BitVec 128
  deriving DecidableEq

structure Int128 where
  bits : BitVec 128
  deriving DecidableEq

def UInt128.ofInt (i : Int) : UInt128 := ⟨BitVec.ofInt 128 i⟩

def UInt128.toNat (x : UInt128) : Nat := x.bits.toNat

def Int128.ofInt (i : Int) : Int128 := ⟨BitVec.ofInt 128 i⟩

def Int128.toInt (x : Int128) : Int := x.bits.toInt

instance : Ord UInt128 where
  compare x y := compare x.toNat y.toNat

instance : Ord Int128 where
  compare x y := compare x.toInt y.toInt

end LinearProbing
