import LinearProbing.Key.Record
import LinearProbing.Key.Wide
import LinearProbing.Text.Quoted

set_option autoImplicit false

/-!
# Shown values

The shape of a value says how it is bracketed. A shape has a compact form, on one line, and a spread
form, with one item on a line.
-/

namespace LinearProbing

inductive Shape where
  /-- A text that is never divided. -/
  | atom (text : String)
  /-- A key and what belongs to it. -/
  | entry (key value : Shape)
  /-- Items between brackets. -/
  | group (opening closing : String) (items : List Shape)

namespace Shape

mutual

def compact : Shape → String
  | atom text => text
  | entry key value => compact key ++ ": " ++ compact value
  | group opening closing items => opening ++ ", ".intercalate (compactEach items) ++ closing

def compactEach : List Shape → List String
  | [] => []
  | item :: items => compact item :: compactEach items

end

def margin (depth : Nat) : String := "".pushn ' ' (4 * depth)

mutual

/-- The form with one item on a line, inside `depth` other groups. -/
def spreadAt (depth : Nat) : Shape → String
  | atom text => text
  | entry key value => spreadAt depth key ++ ": " ++ spreadAt depth value
  | group opening closing [] => opening ++ closing
  | group opening closing (item :: items) =>
    opening ++ "\n" ++ margin (depth + 1) ++ spreadAt (depth + 1) item ++ ",\n" ++
      spreadEach (depth + 1) items ++ margin depth ++ closing

def spreadEach (depth : Nat) : List Shape → String
  | [] => ""
  | item :: items => margin depth ++ spreadAt depth item ++ ",\n" ++ spreadEach depth items

end

def spread (s : Shape) : String := spreadAt 0 s

def list (items : List Shape) : Shape := group "[" "]" items

def set (items : List Shape) : Shape := group "\x7b" "\x7d" items

def named (name : String) (items : List Shape) : Shape := group (name ++ "(") ")" items

end Shape

class Shown (α : Type) where
  shape : α → Shape

namespace Shown

variable {α β : Type}

instance : Shown UInt8 := ⟨fun x => .atom (toString x.toNat)⟩

instance : Shown UInt16 := ⟨fun x => .atom (toString x.toNat)⟩

instance : Shown UInt32 := ⟨fun x => .atom (toString x.toNat)⟩

instance : Shown UInt64 := ⟨fun x => .atom (toString x.toNat)⟩

instance : Shown UInt128 := ⟨fun x => .atom (toString x.toNat)⟩

instance : Shown Int8 := ⟨fun x => .atom (toString x.toInt)⟩

instance : Shown Int16 := ⟨fun x => .atom (toString x.toInt)⟩

instance : Shown Int32 := ⟨fun x => .atom (toString x.toInt)⟩

instance : Shown Int64 := ⟨fun x => .atom (toString x.toInt)⟩

instance : Shown Int128 := ⟨fun x => .atom (toString x.toInt)⟩

instance : Shown Bool := ⟨fun b => .atom (if b then "true" else "false")⟩

instance : Shown Char := ⟨fun c => .atom (Text.sourceCharLiteral c)⟩

instance : Shown String := ⟨fun s => .atom (Text.sourceString s)⟩

instance : Shown Unit := ⟨fun _ => .atom "()"⟩

instance [Shown α] : Shown (List α) := ⟨fun items => .list (items.map shape)⟩

instance [Shown α] : Shown (Option α) where
  shape
    | none => .atom "None"
    | some a => .named "Some" [shape a]

instance [Shown α] [Shown β] : Shown (α × β) := ⟨fun p => .named "" [shape p.1, shape p.2]⟩

instance : Shown Record := ⟨fun r => .atom (toString r.id.toNat ++ "/" ++ toString r.tag.toNat)⟩

def setShape [Shown α] (items : List α) : Shape := .set (items.map shape)

def mapShape [Shown α] [Shown β] (pairs : List (α × β)) : Shape :=
  .set (pairs.map fun p => .entry (shape p.1) (shape p.2))

end Shown

end LinearProbing
