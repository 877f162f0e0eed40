/-!
# Lines and columns

Source positions are byte offsets into UTF-8 text. `Position.ofOffset` turns one into the line and
column that an editor would show, and `TextLine.split` cuts the text into the lines that a report
prints.
-/

namespace ElmInference

/-- A place in a text, both numbers counted from one. -/
structure Position where
  line : Nat
  column : Nat
deriving DecidableEq, Inhabited

namespace Position

/-- The longest beginning of a text that takes no more than a number of bytes. -/
def charsWithin (bytes : Nat) : List Char → List Char
  | [] => []
  | c :: rest => if c.utf8Size ≤ bytes then c :: charsWithin (bytes - c.utf8Size) rest else []

/-- What follows the last newline of a text. -/
def lineBeginning (text : List Char) : List Char :=
  (text.reverse.takeWhile (· != '\n')).reverse

/-- The place reached after a text. -/
def after (before : List Char) : Position :=
  ⟨before.count '\n' + 1, (lineBeginning before).length + 1⟩

/-- The place of a byte offset. An offset behind the end or inside a character counts as the last
character boundary before it. -/
def ofOffset (text : String) (offset : Nat) : Position :=
  after (charsWithin offset text.toList)

end Position

namespace TextLine

/-- Drops one carriage return at the end of a line, given in reverse. -/
def dropReturn : List Char → List Char
  | '\r' :: rest => rest
  | line => line

/-- The lines of a text, with `line` holding the reversed start of the current one. -/
def collect (line : List Char) : List Char → List (List Char)
  | [] => if line.isEmpty then [] else [line.reverse]
  | c :: rest =>
    if c = '\n' then (dropReturn line).reverse :: collect [] rest else collect (c :: line) rest

/-- The lines of a text. A line ends at a newline, and a carriage return directly before the newline
belongs to the ending; the text after the last newline is a line unless it is empty. -/
def split (text : String) : List String :=
  (collect [] text.toList).map String.ofList

/-- The line of a number counted from one, or nothing at all. -/
def nth (text : String) (line : Nat) : String :=
  ((split text)[line - 1]?).getD ""

end TextLine

end ElmInference
