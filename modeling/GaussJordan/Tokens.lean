import GaussJordan.Blank

namespace GaussJordan

/-- The pieces between the characters that separate, empty ones included. -/
def pieces (separates : Char → Bool) (text : List Char) : List (List Char) :=
  text.foldr (fun c found =>
    if separates c then [] :: found
    else match found with
      | [] => [[c]]
      | piece :: others => (c :: piece) :: others) [[]]

/-- The lines of a text; each line feed ends one. -/
def lines (text : List Char) : List (List Char) := pieces (· == '\n') text

/-- The longest runs of characters that are not blank. -/
def tokens (line : List Char) : List (List Char) := (pieces isBlank line).filter (· ≠ [])

theorem pieces_ne_nil (separates : Char → Bool) (text : List Char) :
    pieces separates text ≠ [] := by
  cases text with
  | nil => simp [pieces]
  | cons c cs =>
    simp only [pieces, List.foldr_cons]
    split
    next => simp
    next => split <;> simp

theorem pieces_cons_of_separates {separates : Char → Bool} {c : Char} (h : separates c)
    (text : List Char) : pieces separates (c :: text) = [] :: pieces separates text := by
  simp [pieces, h]

end GaussJordan
