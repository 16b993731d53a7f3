/-!
# Blank — white space at the ends of a text and between its words

The white-space characters of Unicode, the three ways of cutting them from the ends of a text, and the words between
them.
-/
namespace FixedStep
namespace Text

/-- The characters with the white-space property: the controls from tab to return, the spaces and the separators. -/
def isBlank (c : Char) : Bool :=
  let n := c.toNat
  (0x9 ≤ n && n ≤ 0xd) || n == 0x20 || n == 0x85 || n == 0xa0 || n == 0x1680 || (0x2000 ≤ n && n ≤ 0x200a) ||
    n == 0x2028 || n == 0x2029 || n == 0x202f || n == 0x205f || n == 0x3000

/-- The characters without the blanks in front. -/
def dropBlanks (cs : List Char) : List Char := cs.dropWhile isBlank

/-- The text without the blanks behind. -/
def trimEnd (s : String) : String := String.ofList (dropBlanks s.toList.reverse).reverse

/-- The text without the blanks on either side. -/
def trim (s : String) : String := String.ofList (dropBlanks (dropBlanks s.toList.reverse).reverse)

/-- A text of blanks only, the empty one included. -/
def isAllBlank (s : String) : Bool := s.toList.all isBlank

def wordsOf (cs : List Char) : List String := ((cs.splitOnP isBlank).filter fun w => !w.isEmpty).map String.ofList

/-- **The words of a text**: what stands between blanks. -/
def words (s : String) : List String := wordsOf s.toList

end Text
end FixedStep
