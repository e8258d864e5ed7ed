/-!
Blank characters, trimming and splitting of text.

A character is blank when it has the Unicode property White_Space; the table below lists the
property's ranges. Text is handled as a list of characters, so that each operation is a recursion
on the data.
-/

namespace ProgramAnalysis.Text

/-- First and last code point of each range of blank characters, in ascending order. -/
def blankRanges : List (Nat × Nat) :=
  [(0x9, 0xd), (0x20, 0x20), (0x85, 0x85), (0xa0, 0xa0), (0x1680, 0x1680), (0x2000, 0x200a),
   (0x2028, 0x2029), (0x202f, 0x202f), (0x205f, 0x205f), (0x3000, 0x3000)]

/-- Whether a character is blank. -/
def isBlank (c : Char) : Bool :=
  blankRanges.any fun r => r.1 ≤ c.toNat && c.toNat ≤ r.2

/-- Drops the blanks at the start. -/
def trimLeft (s : List Char) : List Char := s.dropWhile isBlank

/-- Drops the blanks at the end. -/
def trimRight (s : List Char) : List Char := (s.reverse.dropWhile isBlank).reverse

/-- Drops the blanks at both ends. -/
def trim (s : List Char) : List Char := trimRight (trimLeft s)

/-- The pieces between the characters that satisfy `p`; there is one piece more than such
characters. -/
def pieces (p : Char → Bool) : List Char → List (List Char)
  | [] => [[]]
  | c :: rest =>
    match pieces p rest with
    | [] => [[c]]
    | piece :: others => if p c then [] :: piece :: others else (c :: piece) :: others

/-- The maximal runs of characters that are not blank. -/
def words (s : List Char) : List (List Char) :=
  (pieces isBlank s).filter fun w => !w.isEmpty

/-- The text before and after the first occurrence of `c`, if there is one. -/
def splitFirst (c : Char) : List Char → Option (List Char × List Char)
  | [] => none
  | d :: rest =>
    if d = c then some ([], rest)
    else (splitFirst c rest).map fun (before, after) => (d :: before, after)

/-- Drops one carriage return at the end. -/
def dropReturn (s : List Char) : List Char :=
  if s.getLast? = some '\r' then s.dropLast else s

/-- A line ends at a line feed, a carriage return right before it belongs to the ending, and a text
that ends with a line feed has no further line. -/
def terminated : List (List Char) → List (List Char)
  | [] => []
  | [last] => if last.isEmpty then [] else [last]
  | line :: others => dropReturn line :: terminated others

/-- The lines of a text. -/
def lines (s : List Char) : List (List Char) := terminated (pieces (· = '\n') s)

/-- Adds blanks on the right up to a width. -/
def padRight (width : Nat) (s : String) : String :=
  s ++ String.ofList (List.replicate (width - s.length) ' ')

/-- The texts one after the other, with `between` between two neighbours. -/
def joinWith (between : String) : List String → String
  | [] => ""
  | [s] => s
  | s :: rest => s ++ between ++ joinWith between rest

end ProgramAnalysis.Text
