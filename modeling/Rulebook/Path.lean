/-
  Path.lean --- dotted paths into facts.

  A path is the list of its segments.  Writing joins them with dots and reading
  splits at every dot, so a path of `n` dots has `n + 1` segments, which may be
  empty; `text_ofString` says that nothing is lost.
-/
set_option autoImplicit false

namespace Rulebook

/-- A path as its segments. -/
structure Path where
  /-- The segments, outermost first. -/
  segments : List String
deriving DecidableEq, Repr, Inhabited

namespace Path

/-- The runs of characters between the dots of a text. -/
def splitDots : List Char → List (List Char)
  | [] => [[]]
  | c :: r =>
    if c = '.' then [] :: splitDots r
    else match splitDots r with
      | [] => [[c]]
      | s :: rest => (c :: s) :: rest

/-- The runs of characters joined with dots. -/
def joinDots : List (List Char) → List Char
  | [] => []
  | [s] => s
  | s :: rest => s ++ '.' :: joinDots rest

/-- The path that a text writes. -/
def ofString (s : String) : Path := ⟨(splitDots s.toList).map String.ofList⟩

/-- The text of a path. -/
def text (p : Path) : String := String.ofList (joinDots (p.segments.map String.toList))

/-- The path of a member, whose name may have dots itself. -/
def child (p : Path) (name : String) : Path := ⟨p.segments ++ (ofString name).segments⟩

/-- Whether one path continues the other or is the same. -/
def isWithin (p q : Path) : Bool := q.segments.isPrefixOf p.segments

/-! ## Splitting and joining -/

theorem splitDots_ne_nil (cs : List Char) : splitDots cs ≠ [] := by
  cases cs with
  | nil => simp [splitDots]
  | cons c r =>
    simp only [splitDots]
    split
    · simp
    · split <;> simp

theorem joinDots_splitDots (cs : List Char) : joinDots (splitDots cs) = cs := by
  induction cs with
  | nil => rfl
  | cons c r ih =>
    simp only [splitDots]
    split
    · rename_i h
      subst h
      cases hr : splitDots r with
      | nil => exact absurd hr (splitDots_ne_nil r)
      | cons s rest => rw [← ih, hr]; simp [joinDots]
    · split
      · rename_i hr
        exact absurd hr (splitDots_ne_nil r)
      · rename_i s rest hr
        rw [hr] at ih
        cases rest with
        | nil => simpa [joinDots] using ih
        | cons s' rest' => simpa [joinDots] using ih

/-- Writing the path that a text writes gives the text. -/
theorem text_ofString (s : String) : (ofString s).text = s := by
  simp [ofString, text, Function.comp_def, joinDots_splitDots]

theorem segments_ofString_ne_nil (s : String) : (ofString s).segments ≠ [] := by
  simp [ofString, splitDots_ne_nil]

end Path

end Rulebook
