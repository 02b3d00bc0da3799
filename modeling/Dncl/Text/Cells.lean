/-
Dncl/Text/Cells.lean

Terminal cells: how many columns a character takes on a terminal.

Two rules are in use.  Snippets of source text follow the Unicode widths
(`cells`): wide East Asian characters take two cells, marks that combine with
the character before or after them and control characters take none, all
others take one, but for two Khmer signs that are drawn wider.  The
half-width sound marks of kana combine with the kana before them; the joiner
of Tifinagh consonants takes a cell, since it is drawn where it joins nothing.

Excerpts shown under a runtime error follow a coarser rule (`roughCells`):
printable ASCII and half-width kana take one cell, everything else takes two.
-/
import Dncl.Text.CharSet

namespace Dncl.Text

/-- The code points that are wide or full-width, and the Khmer vowel `qaa`. -/
def wide : CharSet := ⟨[
  ⟨0x1100, 0x2705, [96, 1604, 1, 2933, 2, 13, 2, 190, 4, 3, 1, 2, 1, 521, 2, 21, 2, 50, 12, 43, 1,
    19, 1, 13, 1, 8, 2, 17, 2, 5, 2, 8, 1, 5, 1, 21, 1, 7, 2, 1, 1, 4, 1, 2, 1, 7, 1]⟩,
  ⟨0x270a, 0x321e, [2, 28, 1, 35, 1, 1, 1, 4, 3, 1, 1, 61, 3, 24, 1, 14, 1, 859, 2, 51, 1, 4, 1,
    810, 26, 1, 89, 12, 214, 26, 58, 6, 15, 2, 86, 4, 101, 5, 43, 1, 51, 1, 42, 1, 84, 11, 48]⟩,
  ⟨0x3220, 0x1b152, [40, 8, 7024, 64, 22157, 3, 55, 1177, 29, 643, 11172, 8540, 512, 784, 10, 22,
    35, 1, 19, 1, 4, 149, 96, 127, 7, 28665, 4, 12, 2, 14, 6136, 8, 1238, 42, 9, 8935, 4, 1, 7, 1,
    2, 1, 291, 15, 1, 29, 3]⟩,
  ⟨0x1b155, 0x1f53d, [1, 14, 4, 8, 396, 15624, 1, 202, 1, 190, 1, 2, 10, 101, 3, 13, 44, 4, 9, 7,
    2, 14, 6, 154, 33, 12, 9, 1, 70, 1, 22, 12, 43, 4, 5, 12, 17, 3, 1, 3, 71, 1, 1, 1, 187, 2, 63]⟩,
  ⟨0x1f54b, 0x1fae8, [4, 1, 24, 18, 1, 26, 2, 13, 1, 86, 85, 48, 70, 6, 1, 3, 3, 2, 3, 4, 4, 11,
    2, 7, 9, 227, 12, 4, 1, 283, 47, 1, 10, 1, 185, 112, 13, 3, 9, 7, 46, 1, 7, 8, 14, 4, 9]⟩,
  ⟨0x1faf0, 0x3fffd, [9, 1287, 65534, 2, 65534]⟩]⟩

/-- The code points that take no cell: control characters, marks that extend
the character before or after them, fillers and joiners. -/
def weightless : CharSet := ⟨[
  ⟨0x0, 0x7f3, [32, 95, 33, 13, 1, 594, 112, 275, 7, 263, 45, 1, 1, 1, 2, 1, 2, 1, 1, 61, 1, 10,
    11, 1, 1, 46, 21, 16, 1, 101, 7, 2, 6, 2, 2, 1, 4, 33, 1, 1, 1, 30, 27, 91, 11, 58, 9]⟩,
  ⟨0x7fd, 0xa02, [1, 24, 4, 1, 9, 1, 3, 1, 5, 43, 3, 52, 2, 6, 8, 42, 57, 55, 1, 1, 1, 4, 8, 4, 1,
    3, 7, 10, 2, 29, 1, 58, 1, 1, 1, 2, 4, 8, 1, 9, 1, 10, 2, 26, 1, 2, 2]⟩,
  ⟨0xa3c, 0xbc0, [1, 4, 2, 4, 2, 2, 3, 3, 1, 30, 2, 3, 1, 11, 2, 57, 1, 4, 5, 1, 2, 4, 1, 20, 2,
    22, 6, 1, 1, 58, 1, 1, 2, 1, 4, 8, 1, 7, 3, 10, 2, 30, 1, 59, 1, 1, 1]⟩,
  ⟨0xbcd, 0xd57, [1, 9, 1, 40, 1, 3, 1, 55, 1, 1, 3, 5, 3, 1, 4, 7, 2, 11, 2, 29, 1, 58, 1, 2, 2,
    1, 1, 3, 3, 1, 4, 7, 2, 11, 2, 28, 2, 57, 2, 1, 1, 2, 4, 8, 2, 8, 1]⟩,
  ⟨0xd62, 0x1030, [2, 29, 1, 72, 1, 4, 1, 2, 3, 1, 1, 8, 1, 81, 1, 2, 7, 12, 8, 98, 1, 2, 9, 11,
    7, 73, 2, 27, 1, 1, 1, 1, 1, 55, 14, 1, 5, 1, 2, 5, 11, 1, 36, 9, 1, 102, 4]⟩,
  ⟨0x1032, 0x18a9, [6, 1, 2, 2, 2, 25, 2, 4, 3, 16, 4, 13, 1, 2, 2, 6, 1, 15, 1, 194, 160, 349, 3,
    946, 3, 29, 2, 30, 2, 30, 2, 64, 2, 1, 7, 8, 1, 2, 11, 9, 1, 45, 5, 117, 2, 34, 1]⟩,
  ⟨0x1920, 0x1be9, [3, 4, 2, 9, 1, 6, 3, 219, 2, 2, 1, 58, 1, 1, 7, 1, 1, 1, 1, 2, 8, 6, 10, 2, 1,
    48, 31, 49, 4, 48, 10, 4, 2, 39, 9, 12, 2, 32, 4, 2, 2, 1, 3, 56, 1, 1, 2]⟩,
  ⟨0x1bed, 0xa6f1, [1, 1, 3, 58, 8, 2, 2, 152, 3, 1, 13, 1, 7, 4, 1, 6, 1, 3, 2, 198, 64, 523, 5,
    26, 5, 49, 16, 96, 33, 3070, 3, 238, 32, 554, 6, 105, 2, 201, 1, 29962, 4, 1, 10, 32, 2, 80, 2]⟩,
  ⟨0xa802, 0xaab4, [1, 3, 1, 4, 1, 25, 2, 5, 1, 151, 2, 26, 18, 8, 1, 4, 1, 38, 8, 25, 11, 46, 3,
    48, 1, 2, 4, 2, 2, 39, 1, 67, 6, 2, 2, 2, 2, 12, 1, 8, 1, 47, 1, 51, 1, 1, 3]⟩,
  ⟨0xaab7, 0x10a3f, [2, 5, 2, 1, 1, 42, 2, 8, 1, 238, 1, 2, 1, 4, 1, 11202, 23, 4, 49, 8994, 1,
    737, 16, 16, 16, 207, 1, 158, 3, 79, 9, 516, 1, 226, 1, 149, 5, 1670, 3, 1, 2, 5, 4, 40, 3, 4,
    1]⟩,
  ⟨0x10ae5, 0x11231, [2, 573, 4, 387, 2, 80, 3, 70, 11, 49, 4, 123, 1, 54, 15, 41, 1, 2, 2, 10, 3,
    49, 4, 2, 2, 7, 1, 61, 3, 36, 5, 1, 8, 62, 1, 12, 2, 52, 9, 3, 2, 5, 4, 2, 1, 95, 3]⟩,
  ⟨0x11234, 0x115af, [1, 1, 2, 6, 1, 2, 1, 157, 1, 3, 8, 21, 2, 57, 2, 1, 1, 1, 1, 22, 1, 14, 7,
    3, 5, 195, 8, 2, 3, 1, 1, 23, 1, 81, 1, 2, 6, 1, 1, 2, 1, 1, 2, 1, 2, 235, 1]⟩,
  ⟨0x115b2, 0x119e0, [4, 6, 2, 1, 2, 27, 2, 85, 8, 2, 1, 1, 2, 106, 1, 1, 1, 2, 6, 1, 1, 101, 3,
    2, 4, 1, 5, 259, 9, 1, 2, 245, 1, 10, 2, 1, 2, 1, 1, 1, 1, 144, 4, 2, 2, 4, 1]⟩,
  ⟨0x11a01, 0x11f02, [10, 40, 6, 1, 5, 8, 1, 9, 6, 2, 3, 40, 19, 1, 2, 406, 7, 1, 6, 1, 1, 82, 22,
    2, 7, 1, 2, 1, 2, 122, 6, 3, 1, 1, 2, 1, 9, 72, 2, 3, 1, 1, 1, 347, 2, 11, 3]⟩,
  ⟨0x11f36, 0x1da84, [5, 5, 1, 1, 1, 5373, 1, 6, 15, 13978, 5, 59, 7, 1048, 1, 63, 4, 81, 1,
    19640, 2, 1, 4, 4700, 46, 2, 23, 542, 1, 1, 3, 4, 21, 2, 7, 30, 4, 148, 3, 1979, 55, 4, 50, 8,
    1, 14, 1]⟩,
  ⟨0x1da9b, 0xe0fff, [5, 1, 15, 1360, 7, 1, 17, 2, 7, 1, 2, 1, 5, 100, 1, 160, 7, 375, 1, 61, 4,
    508, 4, 992, 7, 109, 7, 792245, 4096]⟩]⟩

/-- The Khmer sign `beyyal`, which is drawn as three letters. -/
def beyyal : Char :=
  '\u17d8'

/-- The cells that one character takes, by the Unicode widths. -/
def cells (c : Char) : Nat :=
  if weightless.contains c then 0
  else if wide.contains c then 2
  else if c = beyyal then 3
  else 1

/-- Printable ASCII and half-width kana. -/
def isHalfWidth (c : Char) : Bool :=
  (0x20 ≤ c.toNat && c.toNat ≤ 0x7e) || (0xff61 ≤ c.toNat && c.toNat ≤ 0xff9f)

/-- The cells that a text takes when every character but the half-width ones
counts for two. -/
def roughCells (cs : List Char) : Nat :=
  (cs.map fun c => if isHalfWidth c then 1 else 2).foldr (· + ·) 0

end Dncl.Text
