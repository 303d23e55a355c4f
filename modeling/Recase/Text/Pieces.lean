/-!
# Pieces of a text between separators

* `pieces`: the parts of a text between its separators, empty ones included.
* `joinPieces`: parts joined with one separator.
* `joinPieces_pieces`: joining the pieces of a text gives the text back.
-/

namespace Recase.Text

/-- The pieces between the separators; there is one more of them than separators. -/
def pieces (isSeparator : Char → Bool) : List Char → List (List Char)
  | [] => [[]]
  | c :: rest =>
    if isSeparator c then [] :: pieces isSeparator rest
    else
      match pieces isSeparator rest with
      | piece :: more => (c :: piece) :: more
      | [] => [[c]]

/-- The parts with the separator between any two. -/
def joinPieces (separator : Char) : List (List Char) → List Char
  | [] => []
  | [piece] => piece
  | piece :: more => piece ++ separator :: joinPieces separator more

theorem pieces_ne_nil (p : Char → Bool) (cs : List Char) : pieces p cs ≠ [] := by
  cases cs with
  | nil => simp [pieces]
  | cons c rest =>
    simp only [pieces]
    split
    · simp
    · split <;> simp

theorem joinPieces_cons {separator : Char} {piece : List Char} {more : List (List Char)}
    (h : more ≠ []) :
    joinPieces separator (piece :: more) = piece ++ separator :: joinPieces separator more := by
  cases more with
  | nil => exact absurd rfl h
  | cons p ps => rfl

/-- Joining the pieces of a text gives the text back. -/
theorem joinPieces_pieces (separator : Char) (cs : List Char) :
    joinPieces separator (pieces (· == separator) cs) = cs := by
  induction cs with
  | nil => rfl
  | cons c rest ih =>
    simp only [pieces]
    split
    · rename_i h
      rw [joinPieces_cons (pieces_ne_nil _ _), ih]
      simp_all
    · split
      · rename_i piece more h
        rw [h] at ih
        cases more with
        | nil => simp_all [joinPieces]
        | cons p ps =>
          rw [joinPieces_cons (by simp)] at ih ⊢
          simp [ih]
      · rename_i h
        exact absurd h (pieces_ne_nil _ _)

end Recase.Text
