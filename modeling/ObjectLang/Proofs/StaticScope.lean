import ObjectLang.Proofs.ErrorClasses
import ObjectLang.Proofs.Eval.Instances
import ObjectLang.Proofs.Eval.Local
import ObjectLang.Proofs.Later

/-!
Names are resolved where code was written, not where it is called.
What a call does depends on the heap and on its arguments, and on nothing that lies on the call
stack: neither the names nor the receiver nor the owner of a calling activation can be told from
inside. Code that runs in an activation sees that one activation of the stack and no other.
-/
namespace ObjectLang

open Machine Routine

def Machine.atop (m : Machine) (stack : List Activation) (log : List Event) : Machine :=
  { m with stack := stack, log := log }

/-- Of the call stack the routine sees the activations on top only: there is one outcome that it has
over every stack and every log, and what lies below is left as it is. -/
def Routine.OnlySees {α : Type} (top : List Activation) (x : Routine α) (m : Machine) : Prop :=
  ∃ r : Outcome α, ∀ below log, x (m.atop (top ++ below) log) = r.onto below log

def Code.Takes (code : Code) (n : Nat) : Prop :=
  ∀ names, code.params = .fixed names → names.length = n

/-- A value that runs the code in an activation of its own: a function, a closure or a method, where
the code of a method is not one of the two primitives that look at their caller. Code that is
written in a program is a block and no primitive. -/
inductive Kind.Runs (code : Code) : Kind → Prop where
  | function : Runs code (.function code)
  | closure (captured : Activation) : Runs code (.closure code captured)
  | method (owner : ObjectId) (h : ¬ code.SeesCaller) : Runs code (.method owner code)

namespace Routine.OnlySees

variable {α : Type} {top : List Activation} {x y : Routine α} {m : Machine} {n : Nat}

theorem of_local (h : x.Local n) (hn : n ≤ top.length) (m : Machine) : x.OnlySees top m :=
  ⟨x (m.atop top []), fun below log => h.onto (m.atop top []) below log hn⟩

/-- A routine that does the same as another one on every stack. -/
theorem congr (h : y.OnlySees top m)
    (hxy : ∀ stack log, x (m.atop stack log) = y (m.atop stack log)) : x.OnlySees top m := by
  obtain ⟨r, hr⟩ := h
  exact ⟨r, fun below log => (hxy _ log).trans (hr below log)⟩

end Routine.OnlySees

namespace Eval

variable {W : Stock} {k : Inner} {m : Machine} {code : Code} {args : List ObjectId}

/-- With the right number of arguments a call does not use the name of its caller. -/
theorem runCode_caller (h : code.Takes args.length) (caller caller' : String) (this : ObjectId) :
    runCode k caller this code args = runCode k caller' this code args := by
  have htake : ∀ scope, takeArguments caller code scope args =
      takeArguments caller' code scope args := by
    intro scope
    rw [takeArguments, takeArguments]
    cases hparams : code.params with
    | fixed names => simp only [h names hparams, ne_eq, not_true_eq_false, if_false]
    | any => rfl
  simp only [runCode, htake]

/-- Code in an activation of its own. -/
theorem inActivation_local (hk : k.Local) (hcode : ¬ code.SeesCaller) (a : Activation)
    (caller : String) (this : ObjectId) (args : List ObjectId) :
    (withActivation a (runCode k caller this code args)).Local 0 :=
  .withActivation a (hk.runCode (g := (0 : Nat)) caller this (absurd · hcode) nofun args)

theorem callFunction_unseen (hk : k.Local) (hcode : ¬ code.SeesCaller)
    (hargs : code.Takes args.length) (f : ObjectId) (m : Machine) :
    (callFunction k f code args).OnlySees [] m := by
  have hlocal : (newActivation f code.name code.home >>= fun a =>
      withActivation a (runCode k "" f code args)).Local 0 :=
    (Local.newActivation ..).bind fun a => inActivation_local hk hcode a "" f args
  refine (OnlySees.of_local hlocal (Nat.zero_le _) m).congr fun stack log => ?_
  rw [callFunction, bind_run]
  simp only [Routine.read, quiet, runCode_caller hargs _ ""]

theorem callClosure_unseen (hk : k.Local) (hcode : ¬ code.SeesCaller)
    (hargs : code.Takes args.length) (f : ObjectId) (captured : Activation) (m : Machine) :
    (callClosure k f code captured args).OnlySees [] m := by
  have hlocal := inActivation_local hk hcode (captured.renamed code.name) "" f args
  refine (OnlySees.of_local hlocal (Nat.zero_le _) m).congr fun stack log => ?_
  rw [callClosure, bind_run]
  simp only [Routine.read, quiet, runCode_caller hargs _ ""]

theorem Backed.callMethod_unseen {m₀ : Machine} (h : Backed m₀ m) (hm₀ : m₀.Sound W) (hk : k.Local)
    (hcode : ¬ code.SeesCaller) (hargs : code.Takes args.length) (owner : ObjectId)
    (receiver : Option ObjectId) : (callMethod k owner code receiver args).OnlySees [] m := by
  obtain ⟨i, v, hi, hv⟩ := hm₀.nothing
  have hbase (stack log) := (superOf_finds (Backed.builtin_const (m := m.atop stack log)
    ⟨h.store, h.builtins⟩ hm₀ hi hv k) owner).run
  let this := receiver.getD owner
  have hlocal : ((do
      let a ← newActivation owner code.name code.home
      defineLocal a "self" (← newCell (.const (← see (·.face this))))
      defineLocal a "super" (← newCell (.const ((m.store.base owner).getD v)))
      return a) >>= fun a => withActivation a (runCode k "" this code args)).Local 0 :=
    ((Local.newActivation ..).bind fun a => (Local.see _).bind fun _ => (Local.newCell _).bind
      fun _ => (Local.defineLocal ..).bind fun _ => (Local.newCell _).bind fun _ =>
        (Local.defineLocal ..).bind fun _ => .pure a).bind fun a =>
      inActivation_local hk hcode a "" this args
  refine (OnlySees.of_local hlocal (Nat.zero_le _) m).congr fun stack log => ?_
  rw [callMethod, bind_run]
  simp only [Routine.read, quiet, runCode_caller hargs _ ""]
  rw [bind_run, ownedActivation, bind_run_done (hbase stack log)]
  rfl

theorem invoke_unseen (hm : m.Sound W) (htidy : m.store.Tidy) (hk : k.Local) {f : ObjectId}
    (hf : (m.store.kind f).Runs code) (hargs : code.Takes args.length)
    (receiver : Option ObjectId) : (invoke k f receiver args).OnlySees [] m := by
  have hregular : (∀ p, m.store.kind f ≠ .ofModule p) → m.store.Regular (m.store.kind f) :=
    htidy.regular f
  generalize hkind : m.store.kind f = kind at hf hregular
  have hsee : ∀ stack log,
      see (·.kind f) (m.atop stack log) = .done kind (m.atop stack log) := by
    intro stack log
    rw [← hkind]
    rfl
  cases hf with
  | function =>
    have hcode := (hregular (by simp)).function code rfl
    refine (callFunction_unseen hk hcode hargs f m).congr fun stack log => ?_
    rw [invoke, bind_run_done (hsee stack log)]
  | closure captured =>
    have hcode := (hregular (by simp)).closure code captured rfl
    refine (callClosure_unseen hk hcode hargs f captured m).congr fun stack log => ?_
    rw [invoke, bind_run_done (hsee stack log)]
  | method owner hcode =>
    refine ((Backed.refl m).callMethod_unseen hm hk hcode hargs owner receiver).congr
      fun stack log => ?_
    rw [invoke, bind_run_done (hsee stack log)]

end Eval

namespace Machine

variable {m : Machine}

/-- In every state of a run, a call of a function, of a closure or of a method that does not look at
its caller, with the right number of arguments, has the same outcome on every call stack: the value
or the error, the heap with the modules in it and the output are the same, and the stack is left as
it was. What an expression, a statement or a block does in an activation is the same whatever lies
below that activation. -/
theorem calls_see_no_caller (h : Reachable m) (d : Nat) :
    (∀ f code receiver args, (m.store.kind f).Runs code → code.Takes args.length →
      (Eval.invoke (.ofDepth d) f receiver args).OnlySees [] m) ∧
    ∀ a, (∀ e, ((Inner.ofDepth d).evaluate e).OnlySees [a] m) ∧
      (∀ s, (Eval.runStatement (.ofDepth d) s).OnlySees [a] m) ∧
      ∀ b, (Eval.execute (.ofDepth d) b).OnlySees [a] m := by
  have hk := Inner.local_ofDepth d
  refine ⟨fun f code receiver args hf hargs => ?_, fun a => ⟨fun e => ?_, fun s => ?_, fun b => ?_⟩⟩
  · exact Eval.invoke_unseen h.sound h.tidy hk hf hargs receiver
  · exact .of_local (hk.evaluates (0 : Nat) e (Discipline.near_free.takes _)) (by simp) m
  · exact .of_local (Discipline.near_free.modular.runStatement (g := (0 : Nat)) hk
      (Discipline.near_free.takes _))
      (by exact Nat.le_refl 1) m
  · exact .of_local (Discipline.near_free.modular.execute (g := (0 : Nat)) hk
      (Discipline.near_free.takes _))
      (by exact Nat.le_refl 1) m

/-- The function of a program, called with any value by whomever. -/
theorem calls_see_no_caller_sample : ∃ m o code, After [sampleSource] m ∧
    m.store.kind o = .function code ∧ ∀ v, ∃ r : Outcome ObjectId, ∀ stack log,
      Eval.invoke (.ofDepth 24) o none [v] (m.atop stack log) = r.onto stack log := by
  obtain ⟨m, hend, -, -, o, -, code, hkind, x, hparams⟩ := sample_function
  have hm : After [sampleSource] m := .next .start 24 sampleSource hend
  refine ⟨m, o, code, hm, hkind, fun v => ?_⟩
  have hruns : (m.store.kind o).Runs code := hkind ▸ .function
  have htakes : code.Takes 1 := by
    intro names hnames
    rw [hparams] at hnames
    cases hnames
    rfl
  exact (calls_see_no_caller (.between hm) 24).1 o code none [v] hruns htakes

end Machine

end ObjectLang
