import ReversePolish.CommandLine

/-! The executable: hands the arguments and the standard input to the program, prints what it says and
exits with its code. -/
namespace ReversePolish

partial def readAll (stdin : IO.FS.Stream) (read : String) : IO String := do
  let line ← stdin.getLine
  if line.isEmpty then return read else readAll stdin (read ++ line)

end ReversePolish

open ReversePolish in
def main (args : List String) : IO UInt32 := do
  let args := args.map String.toList
  let input ← if CommandLine.readsInput args then readAll (← IO.getStdin) "" else pure ""
  let outcome := CommandLine.run args input.toList
  let stdout ← IO.getStdout
  stdout.putStr (String.ofList outcome.stdout)
  stdout.flush
  return outcome.exitCode.toUInt32
