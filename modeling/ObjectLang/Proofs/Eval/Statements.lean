import ObjectLang.Proofs.Eval.Modules

/-!
Expressions and statements go well, to every depth, and so does every program that parses.
There is one case for each sort of expression and of statement. All code that comes to run is a body
of the tree that is being evaluated, or was a body when it was put into the store.
-/
namespace ObjectLang

variable {body : Block}

section Blueprints

variable {W : Stock} {s : Store} {home : TableId} {b : Blueprint}

theorem Eval.methodCode_fits (hhome : s.HasTable home) (name : String) (params : List String)
    (hbody : W.block body) : (methodCode home name params body).Fits W s :=
  ⟨hbody, by simpa [methodCode, Code.block] using hhome⟩

theorem Eval.accessorCode_fits (hhome : s.HasTable home) (name : String) {a : Option Accessor}
    (ha : W.blocks (bodiesIn Accessor.bodies a)) :
    ∀ c ∈ a.map (accessorCode home name), c.Fits W s := by
  intro c hc
  obtain ⟨⟨params, body⟩, rfl, rfl⟩ := Option.map_eq_some_iff.mp hc
  exact methodCode_fits hhome name params (Stock.blocks_singleton.mp ha)

/-- Each member adds to the parts of its sort. -/
theorem Blueprint.Fits.addMember (hb : b.Fits W s) (hhome : s.HasTable home) {x : Member}
    (hx : W.blocks x.bodies) : (Eval.addMember home b x).Fits W s := by
  cases x with
  | val name value =>
    refine { hb with vals := fun f hf => ?_ }
    rcases List.mem_append.mp hf with hf | hf
    · exact hb.vals f hf
    · rw [List.mem_singleton.mp hf]
      rintro e ⟨⟩
      exact hx
  | var name value =>
    refine { hb with vars := fun f hf => ?_ }
    rcases List.mem_append.mp hf with hf | hf
    · exact hb.vars f hf
    · rw [List.mem_singleton.mp hf]
      exact Stock.expr_of_bodiesIn hx
  | method name params body =>
    refine { hb with methods := fun c hc => ?_ }
    rcases List.mem_append.mp hc with hc | hc
    · exact hb.methods c hc
    · rw [List.mem_singleton.mp hc]
      exact Eval.methodCode_fits hhome name params (Stock.blocks_singleton.mp hx)
  | operator symbol params body =>
    refine { hb with operators := fun c hc => ?_ }
    rcases List.mem_append.mp hc with hc | hc
    · exact hb.operators c hc
    · rw [List.mem_singleton.mp hc]
      exact Eval.methodCode_fits hhome symbol params (Stock.blocks_singleton.mp hx)
  | property name getter setter =>
    obtain ⟨hgetter, hsetter⟩ := Stock.blocks_append.mp hx
    refine { hb with properties := fun p hp => ?_ }
    rcases List.mem_append.mp hp with hp | hp
    · exact hb.properties p hp
    · rw [List.mem_singleton.mp hp]
      exact ⟨Eval.accessorCode_fits hhome name hgetter, Eval.accessorCode_fits hhome name hsetter⟩

theorem Blueprint.Fits.addMembers (hb : b.Fits W s) (hhome : s.HasTable home)
    (members : List Member) (hmembers : W.blocks (members.flatMap Member.bodies)) :
    (members.foldl (Eval.addMember home) b).Fits W s := by
  induction members generalizing b with
  | nil => exact hb
  | cons x rest ih =>
    rw [List.flatMap_cons, Stock.blocks_append] at hmembers
    exact ih (hb.addMember hhome hmembers.1) hmembers.2

theorem Eval.addMember_base (home : TableId) (b : Blueprint) (x : Member) :
    (addMember home b x).base = b.base := by
  cases x <;> rfl

theorem Eval.declaredBlueprint_base (home : TableId) (name : String) (base : ObjectId)
    (members : List Member) : (declaredBlueprint home name base members).base = some base := by
  have hfold : ∀ b : Blueprint, (members.foldl (addMember home) b).base = b.base := by
    induction members with
    | nil => exact fun _ => rfl
    | cons x rest ih =>
      intro b
      rw [List.foldl_cons, ih, addMember_base]
  exact hfold _

theorem Eval.declaredBlueprint_fits (hhome : s.HasTable home) (name : String) {base : ObjectId}
    (hbase : s.HasObject base) (members : List Member)
    (hmembers : W.blocks (members.flatMap Member.bodies)) :
    (declaredBlueprint home name base members).Fits W s := by
  refine Blueprint.Fits.addMembers ?_ hhome members hmembers
  refine ⟨?_, by simp [Blueprint.empty], by simp [Blueprint.empty], by simp [Blueprint.empty],
    by simp [Blueprint.empty], by simp [Blueprint.empty], ?_⟩
  · rintro c ⟨⟩
    exact hbase
  · rintro t ⟨⟩
    exact hhome

end Blueprints

namespace Eval

open Machine Routine

variable {W : Stock} {k : Inner} {n : Nat} {m : Machine} {e : Option Expr} {b : Block}

variable (hk : Good W k)
include hk

variable (hm : Ready W n m)
include hm

theorem declareFunction_goes (name : String) (params : List String) (hbody : W.block body) :
    (declareFunction k name params body).Delivers W n m := by
  refine Goes.bind_peek fun a ha => ?_
  refine callable_goes hk hm _ (.function _) ⟨?_, by simp [Store.NoClass]⟩ trivial
  exact methodCode_fits (hm.sound.stack a (List.mem_of_getElem? ha)).home name params hbody

/-- The copy of the running activation is made at the moment of the deed. -/
theorem declareClosure_goes (params : List String) (hbody : W.block body) :
    (declareClosure k params body).Delivers W n m := by
  refine Goes.bind_peek fun a ha => ?_
  have hhead : m.stack.head? = some a := by rwa [List.head?_eq_getElem?]
  obtain ⟨-, hcaptured⟩ := Store.captureActivation_adds hm.sound.store (hm.sound.head hhead)
  have hhonest : Moment.Honest W n ⟨.captures a, m⟩ := hhead
  have hon := Moment.onward hhonest hm.sound
  have hready : Ready W n (Moment.after ⟨.captures a, m⟩) :=
    hon.ready hm
  refine Goes.of_later (y := makeClosure k (.block "<closure>" params body
    (some (m.store.captureActivation a).1.home)) (m.store.captureActivation a).1)
    (Path.moment hhonest) rfl rfl ?_ ?_
  · rw [moments_bind_done rfl, moments_touch, moments_bind_done rfl, make, moments_quiet]
    rfl
  · have hcode := methodCode_fits hcaptured.home "<closure>" params hbody
    exact callable_goes hk hready _ (.closure _ _) ⟨⟨hcode, hcaptured⟩, by simp [Store.NoClass]⟩
      trivial

theorem evaluateAll_goes (es : List Expr) (hes : ∀ e ∈ es, W.expr e) :
    (evaluateAll k es).Goes W n m fun vs _ s => ∀ v ∈ vs, s.HasObject v := by
  induction es generalizing m with
  | nil => exact Goes.pure (by simp)
  | cons e rest ih =>
    refine Goes.bind hm (hk.evaluate hm (hes e (List.mem_cons_self ..))) ?_
    intro v _ m₁ hreached hv
    have hready := hreached.ready hm
    refine Goes.bind hready (ih hready fun e he => hes e (List.mem_cons_of_mem _ he)) ?_
    intro vs _ m₂ hreached₂ hvs
    refine Goes.pure fun x hx => ?_
    rcases List.mem_cons.mp hx with rfl | hx
    · exact hv.mono hreached₂.sizes
    · exact hvs x hx

theorem evaluateCall_goes {callee : Expr} {args : List Expr} (hcallee : W.expr callee)
    (hargs : ∀ e ∈ args, W.expr e) :
    (do let f ← k.evaluate callee; k.invoke f none (← evaluateAll k args) :
      Routine ObjectId).Delivers W n m := by
  refine Goes.bind hm (hk.evaluate hm hcallee) ?_
  intro f _ m₁ hreached hf
  have hready := hreached.ready hm
  refine Goes.bind hready (evaluateAll_goes hk hready args hargs) ?_
  intro vs _ m₂ hreached₂ hvs
  exact hk.invoke (hreached₂.ready hready) (hf.mono hreached₂.sizes) (by simp) hvs

theorem evaluate_goes {e : Expr} (he : W.expr e) : (evaluate k e).Delivers W n m := by
  cases e with
  | integer i => exact integer_goes hk hm i
  | float x => exact float_goes hk hm x
  | string text => exact string_goes hk hm text
  | name x => exact getName_goes hk hm x
  | binary op lhs rhs =>
    obtain ⟨hlhs, hrhs⟩ := Stock.expr_binary.mp he
    refine Goes.bind hm (hk.evaluate hm hlhs) ?_
    intro l _ m₁ hreached hl
    have hready := hreached.ready hm
    refine Goes.bind hready (hk.evaluate hready hrhs) ?_
    intro r _ m₂ hreached₂ hr
    exact dispatch_goes hk (hreached₂.ready hready) (hl.mono hreached₂.sizes) (by simpa using hr)
  | call callee args =>
    obtain ⟨hcallee, hargs⟩ := Stock.expr_call he
    cases callee with
    | member target name =>
      refine Goes.bind hm (hk.evaluate hm (Stock.expr_member.mp hcallee)) ?_
      intro t _ m₁ hreached ht
      have hready := hreached.ready hm
      refine Goes.bind hready (evaluateAll_goes hk hready args hargs) ?_
      intro vs _ m₂ hreached₂ hvs
      exact callMember_goes hk (hreached₂.ready hready) hvs (ht.mono hreached₂.sizes) name
    | _ => exact evaluateCall_goes hk hm hcallee hargs
  | index target args =>
    obtain ⟨htarget, hargs⟩ := Stock.expr_index he
    refine Goes.bind hm (hk.evaluate hm htarget) ?_
    intro t _ m₁ hreached ht
    have hready := hreached.ready hm
    refine Goes.bind hready (evaluateAll_goes hk hready args hargs) ?_
    intro vs _ m₂ hreached₂ hvs
    exact dispatch_goes hk (hreached₂.ready hready) (ht.mono hreached₂.sizes) hvs
  | member target name =>
    refine Goes.bind hm (hk.evaluate hm (Stock.expr_member.mp he)) ?_
    intro t _ m₁ hreached ht
    exact getMember_goes hk (hreached.ready hm) ht name
  | function params body =>
    exact declareFunction_goes hk hm _ params (Stock.expr_function.mp he)
  | closure params body => exact declareClosure_goes hk hm params (Stock.expr_closure.mp he)

theorem evaluateOr_goes (he : W.blocks (bodiesIn Expr.bodies e)) :
    (evaluateOr k e).Delivers W n m := by
  cases e with
  | some e => exact hk.evaluate hm he
  | none => exact nothing_goes hk hm

theorem assigned_goes {current : Routine ObjectId}
    (hcurrent : current.Delivers W n m) (op : Option Arith) {value : Expr}
    (hvalue : W.expr value) : (assigned k op current value).Delivers W n m := by
  cases op with
  | none => exact hk.evaluate hm hvalue
  | some op =>
    refine Goes.bind hm hcurrent ?_
    intro c _ m₁ hreached hc
    have hready := hreached.ready hm
    refine Goes.bind hready (hk.evaluate hready hvalue) ?_
    intro v _ m₂ hreached₂ hv
    exact dispatch_goes hk (hreached₂.ready hready) (hc.mono hreached₂.sizes) (by simpa using hv)

theorem superclassOf_goes (he : W.blocks (bodiesIn Expr.bodies e)) :
    (superclassOf k e).Delivers W n m := by
  cases e with
  | some e => exact hk.evaluate hm he
  | none => exact builtin_goes hk hm "Object"

/-- A class is declared over a class only. -/
theorem declareClass_goes (name : String) {superclass : Option Expr} {members : List Member}
    (hsuper : W.blocks (bodiesIn Expr.bodies superclass))
    (hmembers : W.blocks (members.flatMap Member.bodies)) :
    (declareClass k name superclass members).Delivers W n m := by
  refine Goes.bind hm (superclassOf_goes hk hm hsuper) ?_
  intro base _ m₁ hreached hbase
  refine bind_blueprint fun b hb => Goes.bind_peek fun a ha => ?_
  have hhome := (hreached.sound.stack a (List.mem_of_getElem? ha)).home
  have hfits := declaredBlueprint_fits hhome name hbase members hmembers
  have heq := declaredBlueprint_base a.home name base members
  refine makeClass_goes hfits ?_ (by simp [heq])
  intro c hc
  rw [heq] at hc
  cases hc
  exact ⟨b, hb⟩

omit hk in
theorem declareValue_goes (name : String) (cell : ObjectId → Cell) {v : ObjectId}
    (hfits : (cell v).Fits m.store) (hview : ∀ x, cell v ≠ .view x) (hstill : (cell v).Still)
    (hv : m.store.HasObject v) :
    (declareValue name cell v).Goes W n m fun r _ s => s.HasObject r.value := by
  refine Goes.bind hm (Goes.newCell hfits fun x hx => absurd hx (hview x)) ?_
  rintro c _ m₁ hreached ⟨-, hstore, rfl⟩
  have hready := hreached.ready hm
  have hshared : m₁.store.Common ⟨m.store.cells.size⟩ := by
    rw [hstore]
    exact Store.common_newCell hm.sound.store.toWellformed (hview _) hstill
  refine Goes.bind hready (declare_goes hready hshared) ?_
  rintro _ _ m₂ hreached₂ -
  exact Goes.pure ((hv.mono hreached.sizes).mono hreached₂.sizes)

omit hk in
/-- What was evaluated is declared as a constant. -/
theorem declareConst_goes (name : String) {x : Routine ObjectId}
    (hx : x.Delivers W n m) :
    (x >>= declareValue name .const).Goes W n m fun r _ s => s.HasObject r.value := by
  refine Goes.bind hm hx ?_
  intro v _ m₁ hreached hv
  exact declareValue_goes (hreached.ready hm) name .const hv (by simp) trivial hv

theorem runCommand_goes {c : Command} (hc : W.blocks c.bodies) :
    (runCommand k c).Goes W n m fun r _ s => s.HasObject r.value := by
  cases c with
  | val name value => exact declareConst_goes hm name (hk.evaluate hm hc)
  | var name value =>
    refine Goes.bind hm (evaluateOr_goes hk hm hc) ?_
    intro v _ m₁ hreached hv
    exact declareValue_goes (hreached.ready hm) name .var hv (by simp) trivial hv
  | assign name op value =>
    refine Goes.bind hm (assigned_goes hk hm (getName_goes hk hm name) op hc) ?_
    intro v _ m₁ hreached hv
    have hready := hreached.ready hm
    refine Goes.bind hready (Goes.bind_read (bind_found fun c hc => writeVia_goes hk hready hc
      (hasCell_of_name hready.sound hc) (by simp) hv)) ?_
    rintro _ _ m₂ hreached₂ -
    exact Goes.pure (hv.mono hreached₂.sizes)
  | assignMember target name op value =>
    obtain ⟨htarget, hvalue⟩ := Stock.blocks_append.mp hc
    refine Goes.bind hm (hk.evaluate hm htarget) ?_
    intro t _ m₁ hreached ht
    have hready := hreached.ready hm
    refine Goes.bind hready
      (assigned_goes hk hready (getMember_goes hk hready ht name) op hvalue) ?_
    intro v _ m₂ hreached₂ hv
    have hready₂ := hreached₂.ready hready
    refine Goes.bind hready₂ (setMember_goes hk hready₂ name (ht.mono hreached₂.sizes) hv) ?_
    rintro _ _ m₃ hreached₃ -
    exact Goes.pure (hv.mono hreached₃.sizes)
  | giveBack value => exact (evaluateOr_goes hk hm hc).map hm fun _ _ _ h => h
  | function name params body =>
    exact declareConst_goes hm name
      (declareFunction_goes hk hm name params (Stock.blocks_singleton.mp hc))
  | declareClass name superclass members =>
    obtain ⟨hsuper, hmembers⟩ := Stock.blocks_append.mp hc
    exact declareConst_goes hm name (declareClass_goes hk hm name hsuper hmembers)
  | declareModule name body =>
    exact (declareModule_goes hk hm name (Stock.blocks_singleton.mp hc)).map hm fun _ _ _ h => h
  | importModule name binding =>
    refine Goes.bind hm (importModule_goes hk hm name binding) ?_
    rintro _ _ m₁ hreached -
    have hready := hreached.ready hm
    exact (nothing_goes hk hready).map hready fun _ _ _ h => h
  | exportNames names =>
    refine Goes.bind hm (exportNames_goes names) ?_
    rintro _ _ m₁ hreached -
    have hready := hreached.ready hm
    exact (nothing_goes hk hready).map hready fun _ _ _ h => h
  | evaluate value => exact (hk.evaluate hm hc).map hm fun _ _ _ h => h

theorem runStatement_goes {s : Statement} (hs : W.statement s)
    (hbodies : W.blocks s.command.bodies) :
    (runStatement k s).Goes W n m fun r _ s => s.HasObject r.value :=
  Goes.bind_touch hs rfl (Goes.leaving hs (runCommand_goes hk hm hbodies))

theorem runStatements_goes (hb : W.block b) {last : ObjectId} (hlast : m.store.HasObject last) :
    (runStatements k last b).Goes W n m fun r _ s => s.HasObject r.value := by
  induction b generalizing m last with
  | nil => exact Goes.pure hlast
  | cons s rest ih =>
    obtain ⟨hs, hbodies, hrest⟩ := Stock.block_cons.mp hb
    refine Goes.bind hm (runStatement_goes hk hm hs hbodies) ?_
    intro r _ m₁ hreached hr
    cases r with
    | next v => exact ih (hreached.ready hm) hrest hr
    | back v => exact Goes.pure hr

theorem execute_goes (hb : W.block b) :
    (execute k b).Goes W n m fun r _ s => s.HasObject r.value := by
  refine Goes.bind hm (nothing_goes hk hm) ?_
  intro last _ m₁ hreached hlast
  exact runStatements_goes hk (hreached.ready hm) hb hlast

end Eval

open Machine Routine

theorem Routine.Goes.outOfFuel {W : Stock} {n : Nat} {m : Machine} {α : Type}
    {Q : α → List Moment → Store → Prop} :
    (Routine.outOfFuel : Routine α).Goes W n m Q := by
  rw [Goes]
  exact ⟨m, moments_quiet (fun _ => Outcome.exhausted (α := α)) m ▸ .stay m⟩

/-- The induction is on the depth: each level only hands its work on to the one below. -/
theorem good_ofDepth (W : Stock) (d : Nat) : Good W (.ofDepth d) := by
  induction d with
  | zero =>
    constructor
    · exact ⟨0, rfl⟩
    · exact fun _ _ _ _ => Goes.outOfFuel
    · exact fun _ _ _ => Goes.outOfFuel
    · exact fun _ _ => Goes.outOfFuel
    · exact fun _ _ => Goes.outOfFuel
    · exact fun _ _ _ => Goes.outOfFuel
  | succ d ih =>
    constructor
    · exact ⟨d + 1, rfl⟩
    · exact fun hm hf hr hargs => Eval.invoke_goes ih hm hf hr hargs
    · exact fun hm hc hr => Eval.readCell_goes ih hm hc hr
    · exact fun hm he => Goes.bind_touch he rfl (Eval.evaluate_goes ih hm he)
    · exact fun hm hb => Eval.execute_goes ih hm hb
    · exact fun hm hc hf => Eval.invoke_constructor_goes ih hm hc hf

namespace Eval

/-- A source that parses is run as a program. -/
theorem runSource_goes (hm : Ready W n m) (d : Nat) (hparse : parse src = .ok b) (hb : W.block b) :
    (runSource (.ofDepth d) src).Delivers W n m := by
  rw [runSource, hparse]
  refine Goes.bind hm (Goes.note _) ?_
  rintro _ _ m₁ hreached -
  have hready := hreached.ready hm
  exact (execute_goes (good_ofDepth W d) hready hb).map hready fun _ _ _ h => h

/-- A source that does not parse leaves nothing but a line in the log. -/
theorem runSource_malformed (k : Inner) (hparse : parse src = .error e) (m : Machine) :
    runSource k src m = .failed (.malformed e) (m.note (.executing src.title)) := by
  rw [runSource, hparse]
  rfl

theorem runSource_malformed_silent (k : Inner) (hparse : parse src = .error e) :
    (runSource k src).Silent := by
  rw [runSource, hparse]
  exact (silent_quiet _).bind fun _ => silent_quiet _

end Eval

end ObjectLang
