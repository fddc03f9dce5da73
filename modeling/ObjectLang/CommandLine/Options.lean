/-!
The arguments of the command line.
They are read in order, and the first one that cannot be taken ends the reading, as does a request
for the version or for help.
-/
namespace ObjectLang.CommandLine

inductive Flag where
  | verbose
  | quiet
  | version
  | help
deriving DecidableEq

namespace Flag

def ofLetter? : Char → Option Flag
  | 'v' => some verbose
  | 'q' => some quiet
  | 'V' => some version
  | 'h' => some help
  | _ => none

def ofWord? : String → Option Flag
  | "verbose" => some verbose
  | "quiet" => some quiet
  | "version" => some version
  | "help" => some help
  | _ => none

end Flag

inductive Misuse where
  | unknown (argument : String)
  | repeated
  | extraFile (argument : String)
  | emptyFile
  | missingFile
  | contradiction

def Misuse.message : Misuse → String
  | unknown argument => "unexpected argument '" ++ argument ++ "'"
  | repeated => "the argument '--quiet' cannot be used multiple times"
  | extraFile argument => "unexpected argument '" ++ argument ++ "'"
  | emptyFile => "a value is required for '<FILE>'"
  | missingFile => "the argument '<FILE>' is missing"
  | contradiction => "the argument '--quiet' cannot be used with '--verbose'"

inductive Stop where
  | misuse (m : Misuse)
  | version
  | help

/-- The arguments taken so far. -/
structure Draft where
  verbosity : Nat
  quiet : Bool
  file : Option String

structure Options where
  verbosity : Nat
  quiet : Bool
  file : String

namespace Draft

def empty : Draft := ⟨0, false, none⟩

def takeFlag (d : Draft) : Flag → Except Stop Draft
  | .verbose => .ok { d with verbosity := d.verbosity + 1 }
  | .quiet => if d.quiet then .error (.misuse .repeated) else .ok { d with quiet := true }
  | .version => .error .version
  | .help => .error .help

def takeFile (d : Draft) (argument : String) : Except Stop Draft :=
  if d.file.isSome then .error (.misuse (.extraFile argument))
  else if argument = "" then .error (.misuse .emptyFile)
  else .ok { d with file := some argument }

def takeLetter (d : Draft) (c : Char) : Except Stop Draft :=
  match Flag.ofLetter? c with
  | some f => d.takeFlag f
  | none => .error (.misuse (.unknown (String.ofList ['-', c])))

def takeWord (d : Draft) (word : String) : Except Stop Draft :=
  match Flag.ofWord? word with
  | some f => d.takeFlag f
  | none => .error (.misuse (.unknown ("--" ++ word)))

/-- Takes one argument. A single dash is a file. -/
def take (d : Draft) (argument : String) : Except Stop Draft :=
  match argument.toList with
  | '-' :: '-' :: word => d.takeWord (String.ofList word)
  | '-' :: c :: letters => (c :: letters).foldlM takeLetter d
  | _ => d.takeFile argument

/-- Takes all arguments. Those after `--` are files. -/
def takeAll (d : Draft) : List String → Except Stop Draft
  | [] => .ok d
  | "--" :: files => files.foldlM takeFile d
  | argument :: rest => do (← d.take argument).takeAll rest

def finish (d : Draft) : Except Stop Options :=
  if d.quiet ∧ d.verbosity ≠ 0 then .error (.misuse .contradiction)
  else match d.file with
    | some file => .ok ⟨d.verbosity, d.quiet, file⟩
    | none => .error (.misuse .missingFile)

end Draft

namespace Options

def ofArguments (arguments : List String) : Except Stop Options := do
  (← Draft.empty.takeAll arguments).finish

def logRank (o : Options) : Nat := if o.quiet then 0 else 2 + min o.verbosity 3

end Options

end ObjectLang.CommandLine
