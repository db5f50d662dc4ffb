/-! White space, and taking it off the ends of a text. A cut at the end loses nothing: what stays
and what goes, put together, is the text. -/

namespace ChartLight.Text

/-- The code points with the White_Space property. -/
def isBlank (c : Char) : Bool :=
  let n := c.toNat
  (9 ≤ n && n ≤ 13) || n == 0x20 || n == 0x85 || n == 0xA0 || n == 0x1680 ||
    (0x2000 ≤ n && n ≤ 0x200A) || n == 0x2028 || n == 0x2029 || n == 0x202F || n == 0x205F ||
    n == 0x3000

/-- The longest end of a text whose characters all satisfy `p`. -/
def takeWhileEnd (p : Char → Bool) (cs : List Char) : List Char :=
  (cs.reverse.takeWhile p).reverse

/-- A text without the longest end whose characters all satisfy `p`. -/
def dropWhileEnd (p : Char → Bool) (cs : List Char) : List Char :=
  (cs.reverse.dropWhile p).reverse

theorem dropWhileEnd_append_takeWhileEnd (p : Char → Bool) (cs : List Char) :
    dropWhileEnd p cs ++ takeWhileEnd p cs = cs := by
  rw [dropWhileEnd, takeWhileEnd, ← List.reverse_append, List.takeWhile_append_dropWhile,
    List.reverse_reverse]

def trimStart (cs : List Char) : List Char := cs.dropWhile isBlank

def trimEnd (cs : List Char) : List Char := dropWhileEnd isBlank cs

def trim (cs : List Char) : List Char := trimEnd (trimStart cs)

end ChartLight.Text
