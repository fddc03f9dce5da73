import ObjectLang.CommandLine.Report

/-!
The command line program: reads the file that the arguments name, and prints the report.
-/
namespace ObjectLang.CommandLine

/-- The reason that the file system gives. Its code may come negated. -/
def readErrorOf : IO.Error → ReadError
  | .noFileOrDirectory .. | .noSuchThing .. => .missing
  | .inappropriateType _ code _ =>
    if code = 20 ∨ 0 - code = 20 then .notDirectory else .isDirectory
  | e@(.invalidArgument _ code _) =>
    if code = 36 ∨ 0 - code = 36 then .tooLong else .other (toString e)
  | .permissionDenied .. => .other "Permission denied (os error 13)"
  | e => .other (toString e)

def readFile (path : String) : IO (Except ReadError String) := do
  try
    return decodeText (← IO.FS.readBinFile path)
  catch e =>
    return .error (readErrorOf e)

def Report.print (r : Report) : IO UInt32 := do
  (← IO.getStdout).putStr r.output
  (← IO.getStderr).putStr r.errors
  return r.status.code.toUInt32

end ObjectLang.CommandLine

open ObjectLang.CommandLine in
def main (arguments : List String) : IO UInt32 := do
  match Options.ofArguments arguments with
  | .ok o => (o.runFile (← readFile o.file)).print
  | .error stop => stop.report.print
