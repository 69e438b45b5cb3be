import CompilerPlugin.Plugin.MessageNames

open CompilerPlugin.Plugin (Source Environment variablesOfBlock)

def readInput : IO Source := do
  match ← (← IO.getStdin).readBinToEnd.toBaseIO with
  | .ok bytes => return { bytes := bytes.toList }
  | .error e => return { fault := some (toString e) }

def readVariables : IO (List (String × String)) := do
  match ← (IO.FS.readBinFile "/proc/self/environ").toBaseIO with
  | .ok block => return variablesOfBlock block.toList
  | .error _ => return []

def writeOutput (bytes : List UInt8) : IO Unit := do
  let stdout ← IO.getStdout
  stdout.write ⟨bytes.toArray⟩
  stdout.flush

/-- Arguments are judged before the input is touched, so with any of them it is left alone. -/
def main (args : List String) : IO UInt32 := do
  let env : Environment :=
    { args
      vars := ← readVariables
      stdin := ← if args.isEmpty then readInput else pure {} }
  let exit := CompilerPlugin.Plugin.MessageNames.process env
  let stderr ← IO.getStderr
  stderr.putStr exit.stderr
  match ← (writeOutput exit.stdout).toBaseIO with
  | .ok () => return exit.status.toUInt32
  | .error e =>
    stderr.putStrLn (CompilerPlugin.Error.io (toString e)).message
    return 1
