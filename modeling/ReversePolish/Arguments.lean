import ReversePolish.Text

/-! Arguments of the command line: switches first, then the words of an expression. The first argument that is not
a switch begins the expression, and all that follows belongs to it. A switch that asks about the program itself is
answered when the reading comes to it, whatever stands behind it. -/
namespace ReversePolish

inductive Switch where
  | selfTest
  | skipSelfTest
  | rpn
  | history
  | help
  | version
  deriving DecidableEq

namespace Switch

def name : Switch → Text
  | selfTest => "selftest".toList
  | skipSelfTest => "no-selftest".toList
  | rpn => "rpn".toList
  | history => "history".toList
  | help => "help".toList
  | version => "version".toList

def short? : Switch → Option Char
  | rpn => some 'r'
  | help => some 'h'
  | version => some 'V'
  | _ => none

def valueName? : Switch → Option Text
  | history => some "HISTORY".toList
  | _ => none

def purpose : Switch → Text
  | selfTest => "Only run the built-in parser checks".toList
  | skipSelfTest => "Skip the built-in parser checks before starting".toList
  | rpn => "Print the RPN rendering next to each result".toList
  | history => "Where to keep line history (defaults to ~/.rpntree_history)".toList
  | help => "Print help".toList
  | version => "Print version".toList

def all : List Switch := [selfTest, skipSelfTest, rpn, history, help, version]

def ofName? (name : Text) : Option Switch := all.find? fun switch => switch.name == name

def ofShort? (c : Char) : Option Switch := all.find? fun switch => switch.short? == some c

end Switch

/-- An argument by itself: a long switch with the value attached to it by `=`, a bundle of short
switches, the mark that ends the switches, or a word. -/
inductive Argument where
  | long (switch : Switch) (attached : Option Text)
  | short (switches : List Switch)
  | endMark
  | word
  deriving DecidableEq

/-- A bundle with a letter that is no switch is a word, and so is a long name that is none. -/
def Argument.ofText : Text → Argument
  | ['-', '-'] => endMark
  | '-' :: '-' :: rest =>
    let name := rest.takeWhile (· != '=')
    match Switch.ofName? name with
    | some switch => long switch (rest.dropWhile (· != '=')).tail?
    | none => word
  | '-' :: c :: more =>
    match (c :: more).mapM Switch.ofShort? with
    | some switches => short switches
    | none => word
  | _ => word

/-- The switches given, each at most once, and the words of the expression. -/
structure Arguments where
  switches : List Switch
  words : List Text
  deriving DecidableEq

inductive Request where
  | usageError
  | help
  | version
  | perform (a : Arguments)
  deriving DecidableEq

namespace Arguments

def has (a : Arguments) (switch : Switch) : Bool := a.switches.contains switch

/-- Adds a switch. The reading ends if it has been given before, or if it asks about the program itself. -/
def add (a : Arguments) (switch : Switch) : Except Request Arguments :=
  match switch with
  | .help => .error .help
  | .version => .error .version
  | _ => if a.has switch then .error .usageError else .ok { a with switches := switch :: a.switches }

def isValue (arg : Text) : Bool := !arg.isEmpty && Argument.ofText arg == .word

def readFrom (a : Arguments) : List Text → Except Request Arguments
  | [] => .ok a
  | arg :: rest =>
    match Argument.ofText arg with
    | .word => .ok { a with words := arg :: rest }
    | .endMark => .ok { a with words := rest }
    | .short switches => (switches.foldlM add a).bind (·.readFrom rest)
    | .long switch attached =>
      match switch.valueName?.isSome, attached, rest with
      | false, none, rest => (a.add switch).bind (·.readFrom rest)
      | false, some _, _ => .error .usageError
      | true, some value, rest =>
        if value.isEmpty then .error .usageError else (a.add switch).bind (·.readFrom rest)
      | true, none, [] => .error .usageError
      | true, none, value :: rest =>
        if isValue value then (a.add switch).bind (·.readFrom rest) else .error .usageError

/-- Only when all switches have been read is it seen that two of them exclude each other. -/
def read (args : List Text) : Request :=
  match readFrom ⟨[], []⟩ args with
  | .error request => request
  | .ok a => if a.has .selfTest && a.has .skipSelfTest then .usageError else .perform a

example : read ["--selftest".toList, "--no-selftest".toList, "-rh".toList, "-rr".toList] = .help := by decide

end Arguments
end ReversePolish
