/-
# The program

Reads the files that the command line names, and writes the answer.
-/
import TypeResolution.CommandLine.Answer

namespace TypeResolution
namespace CommandLine

/-- The text of a file, if it can be read. -/
def readText? (path : String) : IO (Option String) := do
  try
    return some (← IO.FS.readFile path)
  catch _ =>
    return none

/-- Answers a command line, and gives the code to end with. -/
def run (args : List String) : IO UInt32 := do
  let paths := ((Request.ofArguments args).map Request.paths).getD []
  let texts ← paths.mapM fun path => do
    return (path, ← readText? path)
  let answer := Answer.toArguments (fun path => (texts.lookup path).join) args
  (← IO.getStdout).putStr answer.output
  (← IO.getStderr).putStr answer.errors
  return answer.code.toUInt32

end CommandLine
end TypeResolution

def main (args : List String) : IO UInt32 := TypeResolution.CommandLine.run args
