/-!
# SharedConfig.Text.Blank

White space as Unicode defines it, and ASCII case.
-/

namespace SharedConfig

/-- The characters with the property `White_Space`. -/
def isWhite (c : Char) : Bool :=
  let n := c.toNat
  (0x09 ≤ n && n ≤ 0x0D) || n = 0x20 || n = 0x85 || n = 0xA0 || n = 0x1680 ||
    (0x2000 ≤ n && n ≤ 0x200A) || n = 0x2028 || n = 0x2029 || n = 0x202F || n = 0x205F ||
    n = 0x3000

def trim (cs : List Char) : List Char :=
  (((cs.dropWhile isWhite).reverse).dropWhile isWhite).reverse

def isBlankText (s : String) : Bool := s.toList.all isWhite

/-- A text with its ASCII letters in lower case. -/
def lowercase (s : String) : String := String.ofList (s.toList.map Char.toLower)

end SharedConfig
