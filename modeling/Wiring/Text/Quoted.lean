import Wiring.Text.Printable

set_option autoImplicit false

namespace Wiring.Text

def escape (c : Char) : List Char :=
  match c.toNat with
  | 0 => ['\\', '0']
  | 9 => ['\\', 't']
  | 10 => ['\\', 'n']
  | 13 => ['\\', 'r']
  | 34 => ['\\', Char.ofNat 34]
  | 92 => ['\\', '\\']
  | n => if isPrintable c then [c] else "\\u\x7b".toList ++ Nat.toDigits 16 n ++ "\x7d".toList

def quoted (s : String) : String :=
  "\"" ++ String.ofList (s.toList.flatMap escape) ++ "\""

example : escape (Char.ofNat 0x7f) = "\\u\x7b7f\x7d".toList := by decide
example : escape (Char.ofNat 10) = "\\n".toList := by decide

end Wiring.Text
