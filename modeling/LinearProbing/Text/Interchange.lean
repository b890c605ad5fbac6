import LinearProbing.Fnv.Basic
import LinearProbing.Key.Record
import LinearProbing.Key.Wide
import LinearProbing.Text.Quoted

set_option autoImplicit false

/-!
# Interchange text and digests

Keys have a compact interchange text. Integers of 64 bits and more are quoted, because many readers
would round them. The digest of a container is the hash of the interchange texts of its keys, in bucket
order, and tells whether two containers of a kind have the same layout.
-/

namespace LinearProbing

class Interchange (K : Type) where
  text : K → String

namespace Interchange

variable {K L : Type}

def plain (i : Int) : String := toString i

def quoted (i : Int) : String := "\"" ++ toString i ++ "\""

instance : Interchange UInt8 := ⟨fun x => plain x.toNat⟩

instance : Interchange UInt16 := ⟨fun x => plain x.toNat⟩

instance : Interchange UInt32 := ⟨fun x => plain x.toNat⟩

instance : Interchange UInt64 := ⟨fun x => quoted x.toNat⟩

instance : Interchange UInt128 := ⟨fun x => quoted x.toNat⟩

instance : Interchange Int8 := ⟨fun x => plain x.toInt⟩

instance : Interchange Int16 := ⟨fun x => plain x.toInt⟩

instance : Interchange Int32 := ⟨fun x => plain x.toInt⟩

instance : Interchange Int64 := ⟨fun x => quoted x.toInt⟩

instance : Interchange Int128 := ⟨fun x => quoted x.toInt⟩

instance : Interchange Bool := ⟨fun b => if b then "true" else "false"⟩

instance : Interchange Char := ⟨fun c => Text.interchangeString c.toString⟩

instance : Interchange String := ⟨Text.interchangeString⟩

instance : Interchange Unit := ⟨fun _ => "null"⟩

instance [Interchange K] : Interchange (List K) :=
  ⟨fun keys => "[" ++ ",".intercalate (keys.map text) ++ "]"⟩

instance [Interchange K] : Interchange (Option K) where
  text
    | none => "null"
    | some key => text key

instance [Interchange K] [Interchange L] : Interchange (K × L) :=
  ⟨fun p => "[" ++ text p.1 ++ "," ++ text p.2 ++ "]"⟩

instance : Interchange Record :=
  ⟨fun r => "[" ++ plain r.id.toNat ++ "," ++ plain r.tag.toNat ++ "]"⟩

/-- Takes the text of a key into a hash, with a semicolon behind it. -/
def addKey [Interchange K] (h : UInt32) (key : K) : UInt32 := Fnv.addString h (text key ++ ";")

def digestKeys [Interchange K] (keys : List K) : UInt32 := keys.foldl addKey Fnv.seed

def digestPairs [Interchange K] (pairs : List (K × Int32)) : UInt32 :=
  pairs.foldl (fun h p => Fnv.addUInt32 (addKey h p.1) p.2.toUInt32) Fnv.seed

end Interchange

end LinearProbing
