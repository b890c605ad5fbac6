set_option autoImplicit false

/-!
# Quoted text

Two ways to quote a text. Source quotes are the ones of a program text: control characters and
combining marks are written by their number. Interchange quotes escape no more than a reader of data
needs.
-/

namespace LinearProbing.Text

def hexDigits (n : Nat) : String := String.ofList (Nat.toDigits 16 n)

/-- Whether a character has no form of its own in a program text: it is a control character, or it
combines with the one before it. -/
def isUnprintable (c : Char) : Bool :=
  c.val < 0x20 || (0x7f ≤ c.val && c.val < 0xa0) || (0x300 ≤ c.val && c.val ≤ 0x36f)

def sourceChar (quote c : Char) : String :=
  if c = '\x00' then "\\0"
  else if c = '\t' then "\\t"
  else if c = '\n' then "\\n"
  else if c = '\r' then "\\r"
  else if c = '\\' then "\\\\"
  else if c = quote then "\\" ++ c.toString
  else if isUnprintable c then "\\u\x7b" ++ hexDigits c.toNat ++ "\x7d"
  else c.toString

def sourceString (s : String) : String :=
  "\"" ++ String.join (s.toList.map (sourceChar '"')) ++ "\""

def sourceCharLiteral (c : Char) : String := "'" ++ sourceChar '\'' c ++ "'"

def interchangeChar (c : Char) : String :=
  if c = '"' then "\\\""
  else if c = '\\' then "\\\\"
  else if c = '\n' then "\\n"
  else if c = '\r' then "\\r"
  else if c = '\t' then "\\t"
  else if c = '\x08' then "\\b"
  else if c = '\x0c' then "\\f"
  else if c.val < 0x10 then "\\u000" ++ hexDigits c.toNat
  else if c.val < 0x20 then "\\u00" ++ hexDigits c.toNat
  else c.toString

def interchangeString (s : String) : String :=
  "\"" ++ String.join (s.toList.map interchangeChar) ++ "\""

end LinearProbing.Text
