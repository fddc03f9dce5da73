import ObjectLang.Eval.Construct

/-!
Members by name, and values as text.
A member is asked for by the operator `.`, which takes the name as a string.
-/
namespace ObjectLang.Eval

open Routine

variable (k : Inner)

def getMember (target : ObjectId) (name : String) : Routine ObjectId := do
  dispatch k target "." [← string k name]

def callMember (target : ObjectId) (name : String) (args : List ObjectId) : Routine ObjectId := do
  k.invoke (← getMember k target name) (some target) args

def textOf (o : ObjectId) : Routine String :=
  see fun s => (s.asString o).getD (s.describe o)

/-- A value as text: its member `string`, or its description where it has no such member. -/
def toText (o : ObjectId) : Routine String := do
  match ← attempt (getMember k o "string") with
  | .ok text => textOf text
  | .error (.fault (.unknownName _)) => see (·.describe o)
  | .error e => failWith e

end ObjectLang.Eval
