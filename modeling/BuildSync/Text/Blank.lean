/-! # Blanks

* `isBlank`: the characters with the Unicode property White_Space.
* `trimStart`, `trimEnd`, `trim`: a text without the blanks at its ends.
-/

namespace BuildSync.Text

/-- The characters with the property White_Space. -/
def isBlank (c : Char) : Bool :=
  let n := c.toNat
  (9 ≤ n && n ≤ 13) || n == 0x20 || n == 0x85 || n == 0xA0 || n == 0x1680 ||
    (0x2000 ≤ n && n ≤ 0x200A) || n == 0x2028 || n == 0x2029 || n == 0x202F || n == 0x205F ||
    n == 0x3000

/-- What is left after the leading blanks. -/
def trimStart (cs : List Char) : List Char :=
  cs.dropWhile isBlank

/-- A text without the trailing characters of a class. -/
def trimEndOf (p : Char → Bool) (cs : List Char) : List Char :=
  (cs.reverse.dropWhile p).reverse

/-- What is left before the trailing blanks. -/
def trimEnd (cs : List Char) : List Char :=
  trimEndOf isBlank cs

/-- A text without blanks at either end. -/
def trim (cs : List Char) : List Char :=
  trimEnd (trimStart cs)

/-! ## Facts -/

theorem trimEndOf_isPrefix (p : Char → Bool) (cs : List Char) : trimEndOf p cs <+: cs := by
  have h := List.reverse_prefix.2 (List.dropWhile_suffix p (l := cs.reverse))
  rwa [List.reverse_reverse] at h

end BuildSync.Text
