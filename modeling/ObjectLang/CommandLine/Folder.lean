/-!
Files by path, in a folder held in memory.
A path is walked part by part: what is walked through must be a directory, and above the folder
itself nothing is known. Names and paths are bounded in length.
-/
namespace ObjectLang.CommandLine

inductive ReadError where
  | missing
  | notDirectory
  | isDirectory
  | tooLong
  | notText
  | other (text : String)

def ReadError.message : ReadError → String
  | missing => "No such file or directory (os error 2)"
  | notDirectory => "Not a directory (os error 20)"
  | isDirectory => "Is a directory (os error 21)"
  | tooLong => "File name too long (os error 36)"
  | notText => "stream did not contain valid UTF-8"
  | other text => text

inductive Entry where
  | file (bytes : ByteArray)
  | directory

def decodeText (bytes : ByteArray) : Except ReadError String :=
  match String.fromUTF8? bytes with
  | some text => .ok text
  | none => .error .notText

def pathParts (path : String) : List String :=
  (path.toList.splitOn '/').map String.ofList

/-- The last part of a path that names something. -/
def pathTitle (path : String) : Option String :=
  match ((pathParts path).filter fun p => p ≠ "" ∧ p ≠ ".").getLast? with
  | some ".." => none
  | title => title

def longestName : Nat := 255

def longestPath : Nat := 4095

/-- The entries of a folder by their parts. -/
structure Folder where
  entries : List (List String × Entry)

namespace Folder

def empty : Folder := ⟨[]⟩

/-- The entry at a place. What lies above an entry is a directory. -/
def entry? (f : Folder) (place : List String) : Option Entry :=
  match f.entries.lookup place with
  | some e => some e
  | none =>
    if place = [] ∨ f.entries.any (fun e => place.isPrefixOf e.1) then some .directory else none

def walk (f : Folder) (place : List String) : List String → Except ReadError String
  | [] =>
    match f.entry? place with
    | some (.file bytes) => decodeText bytes
    | some .directory => .error .isDirectory
    | none => .error .missing
  | part :: rest =>
    match f.entry? place with
    | some (.file _) => .error .notDirectory
    | none => .error .missing
    | some .directory =>
      if part = "" ∨ part = "." then f.walk place rest
      else if part ≠ ".." then
        if part.utf8ByteSize ≤ longestName then f.walk (place ++ [part]) rest else .error .tooLong
      else if place = [] then empty.walk [] rest
      else f.walk place.dropLast rest

/-- Reads a file. A path that starts with a slash leads out of the folder. -/
def read (f : Folder) (path : String) : Except ReadError String :=
  if longestPath < path.utf8ByteSize then .error .tooLong
  else match pathParts path with
    | "" :: rest => empty.walk [] rest
    | parts => f.walk [] parts

end Folder

end ObjectLang.CommandLine
