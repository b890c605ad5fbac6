set_option autoImplicit false

/-!
# The order of compound keys

Pairs are ordered by their first part and then by their second part.
-/

namespace LinearProbing

variable {α β : Type}

instance ordUnit : Ord Unit where
  compare _ _ := .eq

instance ordPair [Ord α] [Ord β] : Ord (α × β) where
  compare p q := (compare p.1 q.1).then (compare p.2 q.2)

end LinearProbing
