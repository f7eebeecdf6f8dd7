/-!
# `Segments`: cutting a text at a separator

Paths are cut at slashes and qualified names at dots. Empty pieces carry no name, so the
segments of a text are its non-empty pieces.

Main statements: joining the pieces gives the text back (`join_pieces`), and no piece contains
the separator (`not_mem_of_mem_pieces`).
-/

namespace Cityscape.Text

/-- The pieces between the separators, empty ones included; there is always one. -/
def pieces (sep : Char) : List Char → List (List Char)
  | [] => [[]]
  | c :: cs =>
    if c = sep then [] :: pieces sep cs
    else
      match pieces sep cs with
      | [] => [[c]]
      | p :: ps => (c :: p) :: ps

/-- The pieces with the separator between them. -/
def join (sep : Char) : List (List Char) → List Char
  | [] => []
  | [p] => p
  | p :: q :: ps => p ++ sep :: join sep (q :: ps)

theorem pieces_ne_nil (sep : Char) (cs : List Char) : pieces sep cs ≠ [] := by
  cases cs with
  | nil => simp [pieces]
  | cons c cs =>
    unfold pieces
    split
    · simp
    · split <;> simp

/-- Cutting loses nothing. -/
theorem join_pieces (sep : Char) (cs : List Char) : join sep (pieces sep cs) = cs := by
  induction cs with
  | nil => rfl
  | cons c cs ih =>
    unfold pieces
    split
    · rename_i h
      cases hp : pieces sep cs with
      | nil => exact absurd hp (pieces_ne_nil sep cs)
      | cons p ps => rw [hp] at ih; simp [join, ih, h]
    · split
      · rename_i hp
        exact absurd hp (pieces_ne_nil sep cs)
      · rename_i p ps hp
        rw [hp] at ih
        cases ps with
        | nil => simpa [join] using ih
        | cons q qs => simpa [join] using ih

/-- A piece has no separator in it. -/
theorem not_mem_of_mem_pieces {sep : Char} {cs p : List Char} (h : p ∈ pieces sep cs) :
    sep ∉ p := by
  induction cs generalizing p with
  | nil => simp_all [pieces]
  | cons c cs ih =>
    unfold pieces at h
    split at h
    · rcases List.mem_cons.1 h with rfl | h
      · simp
      · exact ih h
    · rename_i hc
      split at h
      · rename_i hp
        exact absurd hp (pieces_ne_nil sep cs)
      · rename_i q qs hp
        rcases List.mem_cons.1 h with rfl | h
        · have hq := ih (p := q) (hp ▸ List.mem_cons_self)
          simp [hq, Ne.symm hc]
        · exact ih (hp ▸ List.mem_cons_of_mem q h)

/-- The non-empty pieces of a text. -/
def segments (sep : Char) (s : String) : List String :=
  ((pieces sep s.toList).filter (· ≠ [])).map String.ofList

/-- What follows the last separator: the whole text if there is none. -/
def lastPiece (sep : Char) (cs : List Char) : List Char :=
  (pieces sep cs).getLastD []

/-- The text before the first separator and the text after it, if there is one. -/
def splitFirst (sep : Char) : List Char → Option (List Char × List Char)
  | [] => none
  | c :: cs => if c = sep then some ([], cs) else (splitFirst sep cs).map fun (a, b) => (c :: a, b)

/-- The text without the separators at its end. -/
def dropTrailing (sep : Char) (cs : List Char) : List Char :=
  (cs.reverse.dropWhile (· = sep)).reverse

end Cityscape.Text
