import ApexPaths.Text.Classes

/-!
Cutting and joining lists of characters. All functions recurse on the text, and `splitOn` is undone
by `joinWith`.
-/

namespace ApexPaths.Text

/-- The pieces of a text between the occurrences of a separator; there is always at least one. -/
def splitOn (sep : Char) : List Char → List (List Char)
  | [] => [[]]
  | c :: rest =>
    if c = sep then [] :: splitOn sep rest
    else
      match splitOn sep rest with
      | [] => [[c]]
      | piece :: pieces => (c :: piece) :: pieces

/-- The pieces with a separator between neighbours. -/
def joinWith (sep : List Char) : List (List Char) → List Char
  | [] => []
  | [piece] => piece
  | piece :: pieces => piece ++ sep ++ joinWith sep pieces

theorem splitOn_ne_nil (sep : Char) (cs : List Char) : splitOn sep cs ≠ [] := by
  cases cs with
  | nil => simp [splitOn]
  | cons c rest =>
    simp only [splitOn]
    split
    · simp
    · split <;> simp

theorem joinWith_splitOn (sep : Char) (cs : List Char) : joinWith [sep] (splitOn sep cs) = cs := by
  induction cs with
  | nil => rfl
  | cons c rest ih =>
    simp only [splitOn]
    split
    · next h =>
      cases hs : splitOn sep rest with
      | nil => exact absurd hs (splitOn_ne_nil sep rest)
      | cons p ps => rw [hs] at ih; simp [joinWith, ih, h]
    · cases hs : splitOn sep rest with
      | nil => exact absurd hs (splitOn_ne_nil sep rest)
      | cons p ps =>
        rw [hs] at ih
        cases ps with
        | nil => simpa [joinWith] using ih
        | cons q qs => simpa [joinWith] using ih

section
variable (cs : List Char)

/-- The text without blanks at its start. -/
def trimStart : List Char := cs.dropWhile isBlank

def trimEnd : List Char := (cs.reverse.dropWhile isBlank).reverse

/-- The text without blanks at either end. -/
def trim : List Char := trimEnd (trimStart cs)

theorem length_trimStart_le : (trimStart cs).length ≤ cs.length := by
  unfold trimStart
  exact (List.dropWhile_sublist isBlank).length_le

theorem length_trimEnd_le : (trimEnd cs).length ≤ cs.length := by
  unfold trimEnd
  have h := (List.dropWhile_sublist isBlank (l := cs.reverse)).length_le
  simpa using h

theorem length_trim_le : (trim cs).length ≤ cs.length :=
  Nat.le_trans (length_trimEnd_le _) (length_trimStart_le _)

end

/-- The rest of the text after a fixed beginning, if it starts with it. -/
def dropStart? : List Char → List Char → Option (List Char)
  | [], cs => some cs
  | _ :: _, [] => none
  | p :: ps, c :: cs => if p = c then dropStart? ps cs else none

/-- The text before a fixed ending, if it ends with it. -/
def dropEnd? (ending cs : List Char) : Option (List Char) :=
  (dropStart? ending.reverse cs.reverse).map List.reverse

theorem length_dropStart? : ∀ {start cs rest : List Char}, dropStart? start cs = some rest →
    rest.length + start.length = cs.length
  | [], _, _, h => by simp [dropStart?] at h; simp [h]
  | _ :: _, [], _, h => by simp [dropStart?] at h
  | _ :: _, _ :: _, _, h => by
    simp only [dropStart?] at h
    split at h
    · have := length_dropStart? h
      simp; omega
    · simp at h

theorem length_dropEnd? {ending cs rest : List Char} (h : dropEnd? ending cs = some rest) :
    rest.length + ending.length = cs.length := by
  unfold dropEnd? at h
  obtain ⟨r, hr, rfl⟩ := Option.map_eq_some_iff.1 h
  have := length_dropStart? hr
  simpa using this

/-- The parts before and after the first occurrence of `needle`. -/
def cutAt? (needle : List Char) : List Char → Option (List Char × List Char)
  | [] => if needle.isEmpty then some ([], []) else none
  | c :: cs =>
    match dropStart? needle (c :: cs) with
    | some rest => some ([], rest)
    | none => (cutAt? needle cs).map fun (before, after) => (c :: before, after)

/-- Whether `needle` occurs in the text. -/
def occursIn (needle cs : List Char) : Bool := (cutAt? needle cs).isSome

/-- A list of texts with a separator between neighbours. -/
def joinStrings (sep : String) (parts : List String) : String := sep.intercalate parts

end ApexPaths.Text
