import ReversePolish.Arguments

/-! What the program says about itself when it is asked for help. -/
namespace ReversePolish.Usage

/-- How a switch is written. Those without a short form are set in as far as the others. -/
def spelling (switch : Switch) : Text :=
  let short := match switch.short? with
    | some c => ['-', c, ',', ' ']
    | none => List.replicate 4 ' '
  let value := match switch.valueName? with
    | some name => " <".toList ++ name ++ ">".toList
    | none => []
  short ++ "--".toList ++ switch.name ++ value

def table (entries : List (Text × Text)) : List Text :=
  let width := (entries.map fun entry => entry.1.length).foldl max 0
  entries.map fun (entry, purpose) => "  ".toList ++ entry.padRight width ++ "  ".toList ++ purpose

def version : Text := "rpntree 0.1.0".toList

def lines : List Text :=
  ["Parse infix math into a binary tree, print it as RPN and run it on a stack".toList, [],
    "Usage: rpntree [OPTIONS] [EXPR]...".toList, [], "Arguments:".toList] ++
  table [("[EXPR]...".toList, "Expression to evaluate once instead of starting the prompt".toList)] ++
  [[], "Options:".toList] ++ table (Switch.all.map fun switch => (spelling switch, switch.purpose))

end ReversePolish.Usage
