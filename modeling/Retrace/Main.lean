import Retrace.Command.Run

/-!
# The program

Runs the words of the command line on the files of the system.  Colours are used unless the variable
`NO_COLOR` is set.
-/

namespace Retrace

/-- The files of the system and its standard output. -/
def systemHost : Host IO where
  read path := do
    try
      pure (some (← IO.FS.readBinFile path).toList)
    catch _ => pure none
  write path bytes := do
    try
      IO.FS.writeBinFile path (ByteArray.mk bytes.toArray)
      pure true
    catch _ => pure false
  print text := do (← IO.getStdout).putStr text

end Retrace

def main (args : List String) : IO UInt32 := do
  let colored := (← IO.getEnv "NO_COLOR").isNone
  let ending ← Retrace.systemHost.run colored args
  match ending.complaint? with
  | some text => (← IO.getStderr).putStrLn text
  | none => pure ()
  return UInt32.ofNat ending.exitCode
