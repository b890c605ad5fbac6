set_option autoImplicit false

/-!
# Records

A record is known by its number alone. The tag tells copies of a record apart, but neither equality nor
order looks at it.
-/

namespace LinearProbing

structure Record where
  id : UInt32
  tag : UInt32

namespace Record

/-- Records with the same number are equal. -/
instance : BEq Record where
  beq a b := a.id == b.id

/-- Records are ordered by number. -/
instance : Ord Record where
  compare a b := compare a.id b.id

instance transOrd : Std.TransOrd Record where
  eq_swap {a b} := Std.OrientedOrd.eq_swap (a := a.id) (b := b.id)
  isLE_trans {a b c} := Std.TransOrd.isLE_trans (a := a.id) (b := b.id) (c := c.id)

instance lawfulBEqOrd : Std.LawfulBEqOrd Record where
  compare_eq_iff_beq {a b} := Std.LawfulBEqOrd.compare_eq_iff_beq (a := a.id) (b := b.id)

end Record

end LinearProbing
