/-!
# Text

What lines, words and numerals are. Text is handled as a list of characters here, and
strings are for the names and messages of the rest of the library.
-/

namespace ContextFree.Text

/-!
## Blanks

Blank means the Unicode property White_Space. Core's `Char.isWhitespace` knows four of
these characters only, so the ranges are listed here.
-/

/-- The characters with the White_Space property, as ranges of code points. -/
def blankRanges : List (Nat × Nat) :=
  [(0x0009, 0x000d), (0x0020, 0x0020), (0x0085, 0x0085), (0x00a0, 0x00a0), (0x1680, 0x1680),
    (0x2000, 0x200a), (0x2028, 0x2029), (0x202f, 0x202f), (0x205f, 0x205f), (0x3000, 0x3000)]

/-- Is the character white space? -/
def isBlank (c : Char) : Bool :=
  blankRanges.any fun (first, last) => first ≤ c.toNat && c.toNat ≤ last

/-- Takes the blanks off both ends. -/
def trim (cs : List Char) : List Char :=
  ((cs.dropWhile isBlank).reverse.dropWhile isBlank).reverse

/-- The first run of characters that are not blank; empty if all are. -/
def firstWord (cs : List Char) : List Char :=
  (cs.dropWhile isBlank).takeWhile (!isBlank ·)

/-!
## Pieces

A text with `n` separators in it has `n + 1` pieces, so there is always a first one.
-/

/-- The piece up to the first separator, and the pieces that follow separators. -/
def pieces (separator : Char) (cs : List Char) : List Char × List (List Char) :=
  cs.foldr
    (fun c (piece, rest) => if c = separator then ([], piece :: rest) else (c :: piece, rest))
    ([], [])

/-!
## Lines

A line feed ends a line, and one carriage return right before it belongs to the
ending. A carriage return anywhere else is an ordinary character. What follows the
last line feed is a line of its own unless nothing follows.
-/

/-- Takes off one carriage return at the end. -/
def dropReturn (line : List Char) : List Char :=
  if line.getLast? = some '\r' then line.dropLast else line

/-- The lines of a text that begins with `piece` and goes on with `rest` after line feeds. -/
def linesOfPieces : List Char → List (List Char) → List (List Char)
  | piece, [] => if piece.isEmpty then [] else [piece]
  | piece, next :: rest => dropReturn piece :: linesOfPieces next rest

/-- The lines of a text, without their endings. -/
def lines (cs : List Char) : List (List Char) :=
  linesOfPieces (pieces '\n' cs).1 (pieces '\n' cs).2

/-!
## Numerals

Decimal numerals of ASCII digits. A sign may stand in front; leading zeros are
allowed; at least one digit is required.
-/

/-- Reads one digit or more and nothing else. -/
def digits? (cs : List Char) : Option Nat :=
  if !cs.isEmpty && cs.all Char.isDigit then some (Nat.ofDigitChars 10 cs 0) else none

/-- Reads a numeral below `limit`, with or without a plus sign. -/
def numeral? (limit : Nat) (cs : List Char) : Option Nat :=
  (match cs with
    | '+' :: digits => digits? digits
    | digits => digits? digits).filter (· < limit)

/-- Reads a numeral below `limit` that may have a minus sign as long as its value is zero. -/
def signedNumeral? (limit : Nat) (cs : List Char) : Option Nat :=
  match cs with
  | '-' :: digits => (digits? digits).filter (· = 0)
  | cs => numeral? limit cs

end ContextFree.Text
