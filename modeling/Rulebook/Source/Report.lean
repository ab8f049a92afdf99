/-
  Source/Report.lean --- the message for a text that cannot be read.

  The message shows the line with a mark under the place where reading stopped, and
  what was looked for there.  A text of one line is shown without its number.
-/
import Rulebook.Source.Item

set_option autoImplicit false

namespace Rulebook.Source

/-- The number of bytes that characters take in UTF-8. -/
def byteCount (cs : List Char) : Nat := cs.foldr (fun c n => c.utf8Size + n) 0

/-- As many spaces. -/
def indent (n : Nat) : String := String.ofList (List.replicate n ' ')

/-- A place in a text: its line, counted from one, and the part of that line on
either side of it. -/
structure Place where
  /-- The number of the line. -/
  line : Nat
  /-- The characters of the line before the place. -/
  before : List Char
  /-- The characters of the line from the place on. -/
  after : List Char

/-- The place between two parts of a text. -/
def Place.between (before after : List Char) : Place where
  line := before.count '\n' + 1
  before := (before.reverse.takeWhile (· ≠ '\n')).reverse
  after := after.takeWhile (· ≠ '\n')

/-- The column of a failure, counted from one.  It counts characters, but bytes
where the character at the place takes more than one. -/
def Place.column (p : Place) (next : Option Char) : Nat :=
  match next with
  | some c => if c.utf8Size = 1 then p.before.length + 1 else byteCount p.before + 1
  | none => p.before.length + 1

/-- The list of what was looked for. -/
def expectedText (expected : List Expectation) : String :=
  if expected.isEmpty then ""
  else "expected " ++ ", ".intercalate (expected.map Expectation.text)

/-- The message for a text with more than one line.  At the end of the text the
place is one column past the last character. -/
def manyLineText (source : List Char) (failure : Failure) : String :=
  let before := source.take (source.length - failure.rest.length)
  let (place, column) := match failure.rest with
    | c :: _ =>
      let place := Place.between before failure.rest
      (place, place.column (some c))
    | [] =>
      let place := Place.between before.dropLast (before.drop (before.length - 1))
      (place, place.column none + 1)
  let number := toString place.line
  let gutter := indent number.length
  "parse error at line " ++ number ++ ", column " ++ toString column ++ "\n"
    ++ gutter ++ " |\n"
    ++ number ++ " | " ++ String.ofList (place.before ++ place.after) ++ "\n"
    ++ gutter ++ " | " ++ indent (column - 1) ++ "^\n"

/-- The message for a text of one line; the mark stands under the byte. -/
def oneLineText (source : List Char) (failure : Failure) : String :=
  String.ofList source ++ "\n"
    ++ indent (byteCount source - byteCount failure.rest) ++ "^\n"

/-- The message for a failure. -/
def Failure.message (source : List Char) (failure : Failure) : String :=
  (if source.contains '\n' then manyLineText source failure else oneLineText source failure)
    ++ expectedText failure.expected

end Rulebook.Source
