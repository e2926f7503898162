import InfixArith.Repl
/-!
# The command line

Standard input is read a byte at a time, so that a line is answered as soon as it is there. Records
of the highest level go to standard error.
-/

namespace InfixArith.CommandLine

/-- Reads up to and with the next newline. Nothing is read at the end of the input. -/
partial def readLine (input : IO.FS.Stream) (line : List UInt8) : IO (Option (List UInt8)) := do
  let bytes ← input.read 1
  match bytes.toList with
  | [] => return if line.isEmpty then none else some line.reverse
  | byte :: _ =>
      if byte == Repl.newline then return some (byte :: line).reverse
      readLine input (byte :: line)

partial def converse (mode : Mode) (input output : IO.FS.Stream) : IO UInt32 := do
  output.putStr Repl.prompt
  output.flush
  match Repl.reply mode (← readLine input []) with
  | .answered answer =>
      for record in answer.records do
        if record.level = .warn then IO.eprintln ("warning: " ++ record.message)
      output.putStr answer.value
      converse mode input output
  | .closed exitCode =>
      if exitCode != 0 then IO.eprintln "the input is not UTF-8"
      return exitCode.toUInt32

end InfixArith.CommandLine

open InfixArith in
def main (arguments : List String) : IO UInt32 := do
  let output ← IO.getStdout
  output.putStr Repl.banner
  CommandLine.converse (Repl.mode arguments) (← IO.getStdin) output
