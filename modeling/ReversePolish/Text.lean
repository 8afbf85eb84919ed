import ReversePolish.Text.Blank

/-! A text is its list of Unicode scalars. Trimming takes the blanks off both ends; the words of a
text are its longest pieces without a blank. -/
namespace ReversePolish

abbrev Text := List Char

namespace Text

def trimLeft (s : Text) : Text := s.dropWhile isBlank

def trimRight (s : Text) : Text := (s.reverse.dropWhile isBlank).reverse

def trim (s : Text) : Text := trimRight (trimLeft s)

/-- Puts the open word, if it has a character, before the words that follow it. -/
def closeWord : Text × List Text → List Text
  | ([], later) => later
  | (word, later) => word :: later

/-- One character to the left of an open word and the words after it. -/
def wordStep (c : Char) (state : Text × List Text) : Text × List Text :=
  if isBlank c then ([], closeWord state) else (c :: state.1, state.2)

def words (s : Text) : List Text := closeWord (s.foldr wordStep ([], []))

def joined (tokens : List Text) : Text := List.intercalate [' '] tokens

def padRight (width : Nat) (s : Text) : Text := s ++ List.replicate (width - s.length) ' '

@[simp] theorem trim_nil : trim [] = [] := rfl

theorem length_trimLeft_le (s : Text) : (trimLeft s).length ≤ s.length :=
  (List.dropWhile_sublist _).length_le

theorem length_trimRight_le (s : Text) : (trimRight s).length ≤ s.length := by
  simpa [trimRight] using (List.dropWhile_sublist isBlank (l := s.reverse)).length_le

theorem length_trim_le (s : Text) : (trim s).length ≤ s.length :=
  Nat.le_trans (length_trimRight_le _) (length_trimLeft_le s)

@[simp] theorem words_nil : words [] = [] := rfl

end Text
end ReversePolish
