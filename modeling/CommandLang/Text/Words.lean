/-! White space and words. A word is a maximal run of characters outside the Unicode property
`White_Space`, so cutting a text at every blank and dropping the empty pieces gives its words. -/

namespace CommandLang.Text

/-- The characters of the Unicode property `White_Space`. -/
def isBlank (c : Char) : Bool :=
  let code := c.toNat
  (0x09 ≤ code && code ≤ 0x0D) || code == 0x20 || code == 0x85 || code == 0xA0 || code == 0x1680 ||
    (0x2000 ≤ code && code ≤ 0x200A) || code == 0x2028 || code == 0x2029 || code == 0x202F ||
    code == 0x205F || code == 0x3000

def words (text : String) : List String :=
  ((text.toList.splitOnP isBlank).filter (!·.isEmpty)).map String.ofList

def trim (text : List Char) : List Char :=
  ((text.dropWhile isBlank).reverse.dropWhile isBlank).reverse

example : words " a\u00a0 bc\u3000" = ["a", "bc"] := by decide +kernel

example : words "\u200b" = ["\u200b"] := by decide +kernel

example : trim " a b\t".toList = "a b".toList := by decide +kernel

end CommandLang.Text
