set_option autoImplicit false

namespace Wiring.Text

/-- Inclusive ranges of code points that are shown by number. -/
def hiddenRanges : List (Nat × Nat) :=
  [(0x0000, 0x001f), (0x007f, 0x00a0), (0x00ad, 0x00ad), (0x0300, 0x036f), (0x1680, 0x1680),
   (0x2000, 0x200f), (0x2028, 0x202f), (0x205f, 0x206f), (0x20d0, 0x20f0), (0x3000, 0x3000),
   (0xd7fc, 0xdfff), (0xe000, 0xf8ff), (0xfe00, 0xfe0f), (0xfe20, 0xfe2f), (0xfeff, 0xfeff),
   (0xfff0, 0xfffb), (0xfffe, 0xffff), (0xe0000, 0x10ffff)]

def isPrintable (c : Char) : Bool :=
  hiddenRanges.all fun (lo, hi) => c.toNat < lo || hi < c.toNat

example : isPrintable 'a' = true ∧ isPrintable ' ' = true := by decide
example : isPrintable (Char.ofNat 0x301) = false ∧ isPrintable (Char.ofNat 0x65e5) = true := by decide

end Wiring.Text
