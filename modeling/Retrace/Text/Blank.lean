/-!
# Blank characters

* `Blank.isSpace` — the characters with the Unicode property `White_Space`;
* `Blank.isFill` — space, tab, carriage return and line feed, of which blank lines consist;
* `Blank.trim` — a text without white space at its ends.
-/

namespace Retrace.Blank

/-- The Unicode property `White_Space`. -/
def isSpace (c : Char) : Bool :=
  let n := c.toNat
  (9 ≤ n && n ≤ 13) || n = 0x20 || n = 0x85 || n = 0xA0 || n = 0x1680 ||
    (0x2000 ≤ n && n ≤ 0x200A) || n = 0x2028 || n = 0x2029 || n = 0x202F || n = 0x205F ||
    n = 0x3000

/-- Found in lines that hold nothing else. -/
def isFill (c : Char) : Bool := c = ' ' || c = '\t' || c = '\r' || c = '\n'

/-- The text without its last characters that satisfy `p`. -/
def dropEndWhile (p : Char → Bool) (text : List Char) : List Char :=
  (text.reverse.dropWhile p).reverse

/-- The last characters of the text that satisfy `p`. -/
def takeEndWhile (p : Char → Bool) (text : List Char) : List Char :=
  (text.reverse.takeWhile p).reverse

def trim (text : List Char) : List Char := dropEndWhile isSpace (text.dropWhile isSpace)

end Retrace.Blank
