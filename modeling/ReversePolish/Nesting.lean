import ReversePolish.Operator

/-! Nesting of parentheses. A text loses its two ends if it begins with `(`, ends with `)`, and its level stays off zero
in between; an operator is exposed if no more parentheses are opened than closed before it. -/
namespace ReversePolish.Nesting

def shift : Char → Int
  | '(' => 1
  | ')' => -1
  | _ => 0

def balanced (s : Text) : Bool := s.count '(' == s.count ')'

/-- Whether a text that starts at `level` ends in `)` and stays off level zero before that. -/
def closesAtEnd : (level : Int) → Text → Bool
  | _, [] => false
  | _, [c] => c == ')'
  | level, c :: next :: rest =>
    level + shift c != 0 && closesAtEnd (level + shift c) (next :: rest)

/-- What stands between the two ends that a text loses. -/
def inside? : Text → Option Text
  | '(' :: rest => if closesAtEnd 1 rest then some rest.dropLast else none
  | _ => none

def stripOuter (s : Text) : Text := (inside? s).getD s

def exposedFrom : (position : Nat) → (level : Int) → Text → List (Nat × Operator)
  | _, _, [] => []
  | position, level, c :: rest =>
    match Operator.ofSymbol? c with
    | some op =>
      if level ≤ 0 then (position, op) :: exposedFrom (position + 1) level rest
      else exposedFrom (position + 1) level rest
    | none => exposedFrom (position + 1) (level + shift c) rest

def collect : (position : Nat) → (level : Int) → (found : List (Nat × Operator)) → Text →
    List (Nat × Operator)
  | _, _, found, [] => found.reverse
  | position, level, found, c :: rest =>
    match Operator.ofSymbol? c with
    | some op =>
      collect (position + 1) level (if level ≤ 0 then (position, op) :: found else found) rest
    | none => collect (position + 1) (level + shift c) found rest

theorem collect_eq (position : Nat) (level : Int) (found : List (Nat × Operator)) (s : Text) :
    collect position level found s = found.reverse ++ exposedFrom position level s := by
  induction s generalizing position level found with
  | nil => simp [collect, exposedFrom]
  | cons c rest ih =>
    unfold collect exposedFrom
    cases Operator.ofSymbol? c with
    | none => exact ih ..
    | some op => by_cases h : level ≤ 0 <;> simp [h, ih]

def exposed (s : Text) : List (Nat × Operator) := collect 0 0 [] s

theorem length_inside?_lt {s inner : Text} (h : inside? s = some inner) :
    inner.length < s.length := by
  unfold inside? at h
  split at h
  · split at h
    · cases h
      simp only [List.length_dropLast, List.length_cons]
      omega
    · cases h
  · cases h

theorem length_stripOuter_le (s : Text) : (stripOuter s).length ≤ s.length := by
  unfold stripOuter
  cases h : inside? s with
  | none => exact Nat.le_refl _
  | some inner => exact Nat.le_of_lt (length_inside?_lt h)

end ReversePolish.Nesting
