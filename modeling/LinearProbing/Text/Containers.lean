import LinearProbing.KeySet
import LinearProbing.SetPool.Basic
import LinearProbing.StringPool
import LinearProbing.Text.Shape

set_option autoImplicit false

/-!
# Shown containers

Tables and maps are shown as keys with their values, sets as their members, all in bucket order. Pools
are shown in the order in which their contents appeared. A handle is shown by its place among all
handles of its pool, counted from one.
-/

namespace LinearProbing

variable {K V α : Type}

def Table.shape [Shown K] [Shown V] (t : Table K V) : Shape := Shown.mapShape t.toList

def Store.shape [Shown K] [Shown V] (s : Store K V) : Shape := Shown.mapShape s.toList

def KeySet.shape [Shown K] (s : KeySet K) : Shape := Shown.setShape s.toList

instance : Shown Handle where
  shape h := .named "SetHandle" [.named "DefaultKey" [.atom (toString (h.serial + 1) ++ "v1")]]

def PooledSet.shape [Shown α] (s : PooledSet α) : Shape := Shown.setShape s.toList

def SetPool.shape [Shown α] (p : SetPool α) : Shape :=
  .set (p.arena.toList.map fun entry => .entry (Shown.shape entry.1) entry.2.shape)

instance : Shown Symbol where
  shape s := .named "Symbol" [Shown.shape s.number]

def StringPool.shape (p : StringPool) : Shape := Shown.shape p.strings.toList

end LinearProbing
