import ObjectLang.CommandLine.Folder
import ObjectLang.CommandLine.Options
import ObjectLang.Machine.Start

/-!
What the command line prints and the status it ends with.
Log lines come first on the error output. The error of a program is printed there too, whatever is
shown of the log.
-/
namespace ObjectLang.CommandLine

inductive Status where
  | success
  | misuse
  | malformed
  | unreadable
  | failure
deriving DecidableEq

def Status.code : Status → Nat
  | success => 0
  | misuse => 2
  | malformed => 65
  | unreadable => 66
  | failure => 70

structure Report where
  status : Status
  output : String
  errors : String

def logLine (level : Level) (text : String) : String := level.label ++ ": " ++ text ++ "\n"

/-- The log lines up to a rank, oldest first, from where the call stack has a depth. -/
def logLines (rank depth : Nat) : List Event → List String
  | [] => []
  | e :: rest =>
    let depth := e.depthAfter depth
    let later := logLines rank depth rest
    if e.level.rank ≤ rank then logLine e.level (e.text depth) :: later else later

def logText (rank : Nat) (events : List Event) : String := String.join (logLines rank 0 events)

def version : String := "cacti 0.1.0\n"

def usage : String := "Usage: cacti [OPTIONS] <FILE>\n"

def Stop.report : Stop → Report
  | misuse m => ⟨.misuse, "", "error: " ++ m.message ++ "\n\n" ++ usage⟩
  | version => ⟨.success, CommandLine.version, ""⟩
  | help => ⟨.success, usage, ""⟩

def tooDeep : Report := ⟨.failure, "", "the program nests too deeply\n"⟩

/-- Only a program that does not parse is malformed. -/
def statusOf : Error → Status
  | .malformed _ => .malformed
  | _ => .failure

namespace Options

def errorLine (o : Options) (text : String) : String :=
  if Level.error.rank ≤ o.logRank then logLine .error text else ""

def log (o : Options) (m : Machine) : String := logText o.logRank m.log.reverse

def reportRun (o : Options) : Outcome ObjectId → Report
  | .done _ m => ⟨.success, m.sink.text, o.log m⟩
  | .failed e m => ⟨statusOf e, m.sink.text, o.log m ++ e.message ++ "\n"⟩
  | .exhausted => tooDeep

def runOn (o : Options) (s : Source) : Outcome Unit → Report
  | .done _ m => o.reportRun (m.run s)
  | .failed e m =>
    ⟨.failure, m.sink.text, o.log m ++ o.errorLine ("runtime failed to start: " ++ e.message)⟩
  | .exhausted => tooDeep

def runProgram (o : Options) (s : Source) : Report := o.runOn s Machine.start

def runFile (o : Options) : Except ReadError String → Report
  | .ok text => o.runProgram ⟨pathTitle o.file, text⟩
  | .error e =>
    ⟨.unreadable, "", o.errorLine ("cannot read '" ++ o.file ++ "': " ++ e.message)⟩

end Options

/-- The whole command line, over files that are read by `read`. -/
def respond (arguments : List String) (read : String → Except ReadError String) : Report :=
  match Options.ofArguments arguments with
  | .ok o => o.runFile (read o.file)
  | .error stop => stop.report

end ObjectLang.CommandLine
