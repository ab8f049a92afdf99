/-
  Source/Reader.lean --- reading from the front of a text.

  A reader takes what is left of a text and returns a value with what is left after
  it, or a failure.  A failure remembers what was left where its part stopped, so
  its position is the length of the text before that, and whether it is
  committed: an uncommitted failure lets a choice try its next branch and ends a
  repetition, a committed one ends the reading.
-/
set_option autoImplicit false

namespace Rulebook.Source

/-- What a reader was looking for. -/
inductive Expectation
  | value
  | expression
  | ruleBody
  | operand
  | resultKey
  | failureMessage
  | logMessage
  | action
  | fieldType
  | enumVariants
  | packageName
  | shapeName
  | fieldOrEnd
  | ruleName
deriving DecidableEq, Repr

/-- The description of an expectation. -/
def Expectation.text : Expectation → String
  | .value => "value"
  | .expression => "expression"
  | .ruleBody => "rule body"
  | .operand => "value or field path"
  | .resultKey => "result key"
  | .failureMessage => "failure message"
  | .logMessage => "log message"
  | .action => "action"
  | .fieldType => "field type"
  | .enumVariants => "enum variants"
  | .packageName => "package name"
  | .shapeName => "fact type name"
  | .fieldOrEnd => "field or 'end'"
  | .ruleName => "rule name"

/-- Why and where a reader stopped. -/
structure Failure where
  /-- What was left where the failing part stopped. -/
  rest : List Char
  /-- Whether no other branch may be tried. -/
  committed : Bool
  /-- What was looked for, the innermost first. -/
  expected : List Expectation
deriving DecidableEq, Repr

/-- A reader of an `α`. -/
def Reader (α : Type) : Type := List Char → Except Failure (α × List Char)

namespace Reader

variable {α β : Type}

/-- Read nothing. -/
protected def pure (a : α) : Reader α := fun s => .ok (a, s)

/-- Read with `p` and go on with what it gives. -/
protected def bind (p : Reader α) (f : α → Reader β) : Reader β := fun s =>
  match p s with
  | .ok (a, r) => f a r
  | .error e => .error e

instance : Monad Reader where
  pure := Reader.pure
  bind := Reader.bind

/-- Fail here, uncommitted and without a description. -/
def fail : Reader α := fun s => .error ⟨s, false, []⟩

/-- Fail here, committed and without a description. -/
def reject : Reader α := fun s => .error ⟨s, true, []⟩

/-- Commit to this reader: its failures are committed. -/
def commit (p : Reader α) : Reader α := fun s =>
  match p s with
  | .ok result => .ok result
  | .error e => .error { e with committed := true }

/-- Describe what the reader looks for, behind what its parts look for. -/
def expecting (what : Expectation) (p : Reader α) : Reader α := fun s =>
  match p s with
  | .ok result => .ok result
  | .error e => .error { e with expected := e.expected ++ [what] }

/-- Read with `p`, or from the same place with `q` if `p` fails uncommitted; then
the failure of `q` counts. -/
protected def orElse (p : Reader α) (q : Unit → Reader α) : Reader α := fun s =>
  match p s with
  | .ok result => .ok result
  | .error e => if e.committed then .error e else q () s

instance : OrElse (Reader α) where
  orElse := Reader.orElse

/-- Read with `p`, or nothing if it fails uncommitted. -/
def optional (p : Reader α) : Reader (Option α) := fun s =>
  match p s with
  | .ok (a, r) => .ok (some a, r)
  | .error e => if e.committed then .error e else .ok (none, s)

/-- Read with `p` as often as it succeeds and moves on; the attempt that fails
uncommitted is taken back. -/
def many (p : Reader α) (s : List Char) : Except Failure (List α × List Char) :=
  match p s with
  | .ok (a, r) =>
    if r.length < s.length then
      match many p r with
      | .ok (as, t) => .ok (a :: as, t)
      | .error e => .error e
    else .ok ([], s)
  | .error e => if e.committed then .error e else .ok ([], s)
termination_by s.length

/-- Read with `p` once at least. -/
def many1 (p : Reader α) : Reader (List α) := do
  let a ← p
  let as ← many p
  return a :: as

/-- Read a given text. -/
def word (text : List Char) : Reader Unit := fun s =>
  match text.isPrefixOf? s with
  | some r => .ok ((), r)
  | none => .error ⟨s, false, []⟩

/-- Read a given character. -/
def char (c : Char) : Reader Unit := word [c]

/-- Read the longest run of characters of a class. -/
def takeWhile (p : Char → Bool) : Reader (List Char) := fun s =>
  .ok (s.takeWhile p, s.dropWhile p)

/-- Read the longest run of characters of a class, which may not be empty. -/
def takeWhile1 (p : Char → Bool) : Reader (List Char) := fun s =>
  if (s.takeWhile p).isEmpty then .error ⟨s, false, []⟩ else .ok (s.takeWhile p, s.dropWhile p)

/-! ## Running a reader -/

@[simp] theorem pure_apply (a : α) (s : List Char) : (pure a : Reader α) s = .ok (a, s) := rfl

theorem bind_apply (p : Reader α) (f : α → Reader β) (s : List Char) :
    (p >>= f) s = match p s with
      | .ok (a, r) => f a r
      | .error e => .error e := rfl

theorem bind_of_ok {p : Reader α} {f : α → Reader β} {s r : List Char} {a : α}
    (h : p s = .ok (a, r)) : (p >>= f) s = f a r := by
  rw [bind_apply, h]

theorem bind_of_error {p : Reader α} {f : α → Reader β} {s : List Char} {e : Failure}
    (h : p s = .error e) : (p >>= f) s = .error e := by
  rw [bind_apply, h]

end Reader

end Rulebook.Source
