set_option autoImplicit false

namespace Wiring.Text

def hex4 (n : Nat) : List Char :=
  let ds := Nat.toDigits 16 n
  List.replicate (4 - ds.length) '0' ++ ds

def jsonEscape (c : Char) : List Char :=
  match c.toNat with
  | 8 => ['\\', 'b']
  | 9 => ['\\', 't']
  | 10 => ['\\', 'n']
  | 12 => ['\\', 'f']
  | 13 => ['\\', 'r']
  | 34 => ['\\', Char.ofNat 34]
  | 92 => ['\\', '\\']
  | n => if n < 32 then ['\\', 'u'] ++ hex4 n else [c]

def json (s : String) : String := "\"" ++ String.ofList (s.toList.flatMap jsonEscape) ++ "\""

end Wiring.Text
