import ObjectLang.Eval.Call

/-!
Modules.
The body of a module runs once, in an activation of its own. Every name of its top level belongs to
the module; those named in an `export` are shown to others through views, which follow the module's
own variables but cannot be assigned.
-/
namespace ObjectLang.Eval

open Routine

variable (k : Inner)

def defineAll (t : TableId) (bindings : Bindings) : Routine Unit :=
  bindings.forM fun b => (define t b.1 b.2).doing .fillModule

def showName (m : ModuleParts) (name : String) : Routine Unit := do
  let c ← found name (← see (·.lookup m.hidden name))
  let view ← newCell (.view c)
  (define m.shown name view).doing .fillModule

def refuseTaken (name : String) : Routine Unit := do
  let modules ← read (·.modules)
  if (← see (·.local? modules name)).isSome then fail (.moduleTaken name)

def registerModule (name : String) (o : ObjectId) : Routine Unit := do
  refuseTaken name
  defineConst (← read (·.modules)) name o

/-- Runs the body of a module and gives its top-level table and the names to export. -/
def runModuleBody (o : ObjectId) (name : String) (body : Block) :
    Routine (TableId × List String) := do
  let a ← newActivation o name none
  withActivation a do
    let _ ← k.execute body
    let a ← peek 0
    return (a.home, a.recorded Activation.exportKey)

def declareModule (name : String) (body : Block) : Routine ObjectId := do
  refuseTaken name
  let m : ModuleParts := ⟨name, ← newTable, ← newTable⟩
  let o ← makeRooted (.ofModule m) (·.module_)
  let (home, exports) ← runModuleBody k o name body
  defineAll m.hidden (← see fun s => (s.bindings home).sorted)
  exports.forM (showName m)
  note (.moduleRegistered name (← see fun s => (s.bindings m.shown).length))
  registerModule name o
  return o

/-- Records names to be exported when the body of the running module ends. -/
def exportNames (names : List String) : Routine Unit := do
  let a ← peek 0
  match ← see (·.kind a.owner) with
  | .ofModule _ => modify (·.modifyTop fun a => names.foldl (·.record Activation.exportKey ·) a)
  | _ => fail .exportOutside

/-- Binds what an import asks for in the running scope, one name after the other. -/
def importModule (name : String) (binding : Binding) : Routine Unit := do
  let o ← moduleNamed k name
  match ← see (·.kind o) with
  | .ofModule m =>
    match binding with
    | .everything =>
      (← see fun s => (s.bindings m.shown).sorted).forM fun b => declare b.1 b.2
    | .only names =>
      names.forM fun n => do declare n (← found n (← see (·.lookup m.shown n)))
    | .under other => do
      let a ← makeRooted (.moduleAlias o m) (·.module_)
      declare other (← newCell (.const a))
  | _ => fail (.notModule name)

end ObjectLang.Eval
