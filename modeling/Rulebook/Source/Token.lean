/-
  Source/Token.lean --- the tokens of rule text.

  Blanks and comments separate tokens and are skipped in front of most of them.  An
  identifier begins with a letter or an underscore and goes on with letters, digits,
  underscores and dots, so a dotted path is one identifier.
-/
import Rulebook.Number.Decimal
import Rulebook.Source.Reader
import Rulebook.Value

set_option autoImplicit false

namespace Rulebook.Source

open Reader

/-! ## Blanks and comments -/

/-- The blanks of rule text. -/
def isBlank (c : Char) : Bool :=
  c = ' ' || c = '\t' || c = '\n' || c = '\r' || c = '\x0c'

/-- What is left behind the text of a comment: it ends before a line feed, before a
carriage return with a line feed, and at the end.  None if a lone carriage return
comes first. -/
def afterComment? : List Char → Option (List Char)
  | [] => some []
  | '\n' :: r => some ('\n' :: r)
  | '\r' :: '\n' :: r => some ('\r' :: '\n' :: r)
  | '\r' :: _ => none
  | _ :: r => afterComment? r

theorem length_afterComment?_le {s r : List Char} (h : afterComment? s = some r) :
    r.length ≤ s.length := by
  induction s using afterComment?.induct generalizing r with
  | case1 => simp_all [afterComment?]
  | case2 s => simp [afterComment?] at h; subst h; simp
  | case3 s => simp [afterComment?] at h; subst h; simp
  | case4 s hne => rw [afterComment?] at h; simp at h; exact hne
  | case5 c s h1 h2 h3 ih =>
    rw [afterComment?] at h
    · have := ih h; simp; omega
    all_goals simp_all

/-- The text behind the blanks and comments at its front. -/
def skipBlanks : List Char → List Char
  | [] => []
  | c :: r =>
    if isBlank c then skipBlanks r
    else if c = '#' then
      match _h : afterComment? r with
      | some r' => skipBlanks r'
      | none => c :: r
    else c :: r
termination_by s => s.length
decreasing_by
  · simp
  · have := length_afterComment?_le _h
    simp only [List.length_cons]
    omega

/-- Skip blanks and comments. -/
def blanks : Reader Unit := fun s => .ok ((), skipBlanks s)

/-- Skip spaces and tabs, one at least. -/
def spaces : Reader Unit := do
  let _ ← takeWhile1 fun c => c = ' ' || c = '\t'

/-- Skip spaces, tabs and line ends, one at least. -/
def spacesOrLines : Reader Unit := do
  let _ ← takeWhile1 fun c => c = ' ' || c = '\t' || c = '\r' || c = '\n'

/-! ## Words -/

/-- A character that an identifier may begin with. -/
def isNameStart (c : Char) : Bool := c.isAlpha || c = '_'

/-- A character that an identifier may go on with. -/
def isNamePart (c : Char) : Bool := c.isAlphanum || c = '_' || c = '.'

/-- Read an identifier. -/
def identifier : Reader String := do
  let head ← takeWhile1 isNameStart
  let tail ← takeWhile isNamePart
  return String.ofList (head ++ tail)

/-- What is left behind a word of which no identifier goes on. -/
def afterWord? (text s : List Char) : Option (List Char) :=
  match text.isPrefixOf? s with
  | some (c :: r) => if isNamePart c then none else some (c :: r)
  | some [] => some []
  | none => none

/-- Read a keyword in upper or in lower case.  A word that goes on behind it is no
keyword; if the upper case form is there, the lower case form is not tried. -/
def keyword (upper lower : String) : Reader Unit := fun s =>
  let text := if upper.toList.isPrefixOf s then upper.toList else lower.toList
  match afterWord? text s with
  | some r => .ok ((), r)
  | none => .error ⟨s, false, []⟩

/-! ## Literals -/

/-- The text behind an opening quotation mark, up to the closing one.  A backslash
makes a quotation mark or a backslash plain, `n` a line feed and `t` a tab; before
any other character it stands for itself. -/
def stringBody : List Char → List Char → Except Failure (String × List Char)
  | [], _ => .error ⟨[], false, []⟩
  | '\"' :: r, acc => .ok (String.ofList acc.reverse, r)
  | '\\' :: '\"' :: r, acc => stringBody r ('\"' :: acc)
  | '\\' :: '\\' :: r, acc => stringBody r ('\\' :: acc)
  | '\\' :: 'n' :: r, acc => stringBody r ('\n' :: acc)
  | '\\' :: 't' :: r, acc => stringBody r ('\t' :: acc)
  | '\\' :: c :: r, acc => stringBody r (c :: '\\' :: acc)
  | c :: r, acc => stringBody r (c :: acc)

/-- Read a text between quotation marks. -/
def stringLiteral : Reader String := do
  char '\"'
  fun s => stringBody s []

/-- Give a value that a token must have, or reject the token. -/
def orReject {α : Type} : Option α → Reader α
  | some a => pure a
  | none => reject

/-- Read a number with a minus sign: a double if there is a point in it, else a
whole number.  What begins like one must be one. -/
def negativeNumber : Reader Value := do
  char '-'
  let digits ← takeWhile1 fun c => c.isDigit || c = '.'
  if digits.contains '.' then
    orReject ((Numeral.ofChars? ('-' :: digits)).map fun n => .float n.toBinary64)
  else
    orReject (((Decimal.int? ('-' :: digits)).bind Value.int64?).map .int)

/-- Read a number with digits on both sides of a point. -/
def pointNumber : Reader Value := do
  let whole ← takeWhile1 Char.isDigit
  char '.'
  let fraction ← takeWhile1 Char.isDigit
  return .float (.ofDecimal false (Decimal.digitsValue (whole ++ fraction)) (-fraction.length))

/-- The digits of a whole number at the front of a text, with its sign, and what is
left: a sign or none and digits that do not begin with zero, or one zero. -/
def integerDigits? (s : List Char) : Option (List Char × List Char) :=
  let (sign, digits) := match s with
    | '+' :: r => (['+'], r)
    | '-' :: r => (['-'], r)
    | r => ([], r)
  match digits with
  | '0' :: r => if sign.isEmpty then some (['0'], r) else none
  | c :: r =>
    if c.isDigit then some (sign ++ c :: r.takeWhile Char.isDigit, r.dropWhile Char.isDigit)
    else none
  | [] => none

/-- Read a whole number of 64 bits. -/
def integer : Reader Int64 := fun s =>
  match integerDigits? s with
  | some (digits, r) =>
    match (Decimal.int? digits).bind Value.int64? with
    | some n => .ok (n, r)
    | none => .error ⟨s, false, []⟩
  | none => .error ⟨s, false, []⟩

/-- Read a literal. -/
def value : Reader Value := do
  blanks
  expecting .value <|
    (Value.string <$> stringLiteral)
    <|> (do word "true".toList; return .bool true)
    <|> (do word "false".toList; return .bool false)
    <|> negativeNumber
    <|> pointNumber
    <|> (Value.int <$> integer)

end Rulebook.Source
