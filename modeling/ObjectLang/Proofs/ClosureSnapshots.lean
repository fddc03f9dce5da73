import ObjectLang.Proofs.Aliasing
import ObjectLang.Proofs.ErrorClasses
import ObjectLang.Proofs.Eval.Instances
import ObjectLang.Proofs.Standing

/-!
A closure runs on a snapshot of the activation that made it.
The tables of the snapshot are new, belong to no module and are opened only by calls of the closure.
So an assignment made elsewhere does not reach the variables of the snapshot, an assignment to these
does not reach what was captured, and the closure finds at its next call what the last one has
assigned. Imported names are views and follow the module that exports them.
-/
namespace ObjectLang

open Machine Routine

variable {v : ObjectId} {via : Route} {src : Source}

namespace Store

variable {W : Stock} {s s₁ s' : Store} {T : TableId → Prop} {t t' : TableId} {c : CellId}
  {ts : List TableId} {n : String}

/-- What a name stands for in scopes: the content of the cell that it is found to denote. A variable
or a constant reads as the value that its cell holds. -/
def contentIn (s : Store) (ts : List TableId) (name : String) : Option Cell :=
  (s.lookupIn ts name).map s.cell

theorem Wellformed.outer_nil (h : s.Wellformed W) (ht : s.HasTable t) :
    s.outer t = [] := by
  obtain ⟨i, rfl, -⟩ := ht
  exact (h.tables i).outer

/-- What is found in scopes depends on their own bindings only. -/
theorem lookupIn_eq (h : s.Wellformed W) (h' : s'.Wellformed W) (hsizes : s.SizeLe s')
    (hts : ∀ t ∈ ts, s.HasTable t) (hbindings : ∀ t ∈ ts, s'.bindings t = s.bindings t)
    (n : String) :
    s'.lookupIn ts n = s.lookupIn ts n := by
  induction ts with
  | nil => rfl
  | cons t rest ih =>
    have ht := hts t (List.mem_cons_self ..)
    have hlookup : s'.lookup t n = s.lookup t n := by
      rw [lookup, lookup, h.outer_nil ht, h'.outer_nil (ht.mono hsizes)]
      simp only [List.findSome?_singleton, local?, hbindings t (List.mem_cons_self ..)]
    have hrest := ih (fun t ht => hts t (List.mem_cons_of_mem _ ht)) fun t ht =>
      hbindings t (List.mem_cons_of_mem _ ht)
    rw [lookupIn, lookupIn] at hrest
    rw [lookupIn, lookupIn, List.findSome?_cons, List.findSome?_cons, hlookup, hrest]

/-- An assignment changes what a name stands for only if it is that very variable. -/
theorem contentIn_assign (h : ∀ v, s.cell c = .var v → s.lookupIn ts n ≠ some c) (v : ObjectId) :
    (s.assign c v).contentIn ts n = s.contentIn ts n := by
  rw [contentIn, contentIn, lookupIn_assign]
  cases hc : s.lookupIn ts n with
  | none => rfl
  | some c' =>
    rw [Option.map_some, Option.map_some, cell_assign]
    split
    · next heq =>
      subst heq
      cases hcell : s.cell c' with
      | var old => exact absurd hc (h old hcell)
      | _ => rfl
    · rfl

section Modules

def Loose (s : Store) (t : TableId) : Prop :=
  ∀ p, s.HasModule p → t ≠ p.hidden ∧ t ≠ p.shown ∧ t ≠ p.body

variable (h : s.Tidy)
include h

/-- A module is older than a capture, with all its tables, or younger. -/
theorem module_age (hadjoins : s.Adjoins s₁) (hspares : s₁.Spares T s') {p : ModuleParts}
    (hp : s'.HasModule p) :
    (s.Holds p.hidden ∧ s.Holds p.shown ∧ s.Holds p.body) ∨
      ¬ s₁.Holds p.hidden ∧ ¬ s₁.Holds p.shown ∧ ¬ s₁.Holds p.body := by
  rcases hspares.modules p hp with ⟨o, ho⟩ | ⟨i, hplaced, hsize⟩
  · refine Or.inl (h.holds ⟨o, ?_⟩)
    rwa [kind, hadjoins.object_eq] at ho
  · refine Or.inr ?_
    rw [hplaced.hidden, hplaced.shown, hplaced.body]
    simp only [Holds]
    omega

theorem loose_of_captured (hadjoins : s.Adjoins s₁) (hspares : s₁.Spares T s') (hnew : ¬ s.Holds t)
    (hholds : s₁.Holds t) : s'.Loose t := by
  intro p hp
  rcases module_age h hadjoins hspares hp with ⟨hhidden, hshown, hbody⟩ | ⟨hhidden, hshown, hbody⟩
  · exact ⟨fun heq => hnew (heq ▸ hhidden), fun heq => hnew (heq ▸ hshown),
      fun heq => hnew (heq ▸ hbody)⟩
  · exact ⟨fun heq => hhidden (heq ▸ hholds), fun heq => hshown (heq ▸ hholds),
      fun heq => hbody (heq ▸ hholds)⟩

/-- Of two tables that share variables, none is older than a capture and the other younger. -/
theorem twins_age (hadjoins : s.Adjoins s₁) (hspares : s₁.Spares T s') (htwins : s'.Twins t t')
    (ht' : s.Holds t') : s.Holds t := by
  obtain ⟨p, hp, hcase⟩ := htwins
  rcases module_age h hadjoins hspares hp with ⟨hhidden, -, hbody⟩ | ⟨hhidden, -, hbody⟩
  · rcases hcase with ⟨rfl, -⟩ | ⟨rfl, -⟩
    · exact hhidden
    · exact hbody
  · have hafter := ht'.mono hadjoins.sizes
    rcases hcase with ⟨-, rfl⟩ | ⟨-, rfl⟩
    · exact absurd hafter hbody
    · exact absurd hafter hhidden

/-- A variable that a loose table binds is bound nowhere else. -/
theorem Loose.only (ht : s.Loose t) {n' : String} (hc : s.Binds t n c) (hc' : s.Binds t' n' c)
    (hv : s.cell c = .var v) : t = t' := by
  rcases (h.single t n t' n' c v hc hc' hv).2 with heq | ⟨p, hp, ⟨heq, -⟩ | ⟨heq, -⟩⟩
  · exact heq
  · exact absurd heq (ht p hp).1
  · exact absurd heq (ht p hp).2.2

/-- Members are looked up in the tables of objects and of modules. -/
theorem memberScope_tables {accessor target : ObjectId} (ht : t ∈ s.memberScope accessor target) :
    (∃ o p, t = .part o p) ∨ ∃ p, s.HasModule p ∧ (t = p.hidden ∨ t = p.shown) := by
  cases shows_of_mem ht with
  | members => exact Or.inl ⟨target, .members, rfl⟩
  | fields => exact Or.inl ⟨accessor, .fields, rfl⟩
  | @hidden p hkind => exact Or.inr ⟨p, ⟨target, hkind⟩, Or.inl rfl⟩
  | @shown p hkind =>
    refine Or.inr ⟨p, ?_, Or.inr rfl⟩
    rcases hkind with hkind | ⟨o, hkind⟩
    · exact ⟨target, hkind⟩
    · exact (h.regular target (by simp [hkind])).moduleAlias _ _ hkind

/-- No member is bound in a table that stands on its own. -/
theorem member_not_loose {accessor target : ObjectId}
    (hc : s.lookupIn (s.memberScope accessor target) n = some c) :
    ∃ t, s.Binds t n c ∧ ∀ i, s.Loose (.free i) → t ≠ .free i := by
  obtain ⟨t, ht, hlookup⟩ := List.exists_of_findSome?_eq_some hc
  rcases memberScope_tables h ht with ⟨o, p, rfl⟩ | ⟨p, hp, hcase⟩
  · obtain ⟨t', ht', hlocal⟩ := local?_of_lookup hlookup
    refine ⟨t', .of_local? hlocal, fun i _ => ?_⟩
    rcases List.mem_cons.mp ht' with rfl | ht'
    · simp
    · cases p with
      | fields => cases ht'
      | _ =>
        obtain ⟨l, -, rfl⟩ := List.mem_map.mp ht'
        simp
  · obtain ⟨i, -, -, hhidden, hshown⟩ := h.placed p hp
    rcases hcase with rfl | rfl
    · exact ⟨p.hidden, .of_lookup hhidden hlookup, fun i hloose heq => (hloose p hp).1 heq.symm⟩
    · exact ⟨p.shown, .of_lookup hshown hlookup, fun i hloose heq => (hloose p hp).2.1 heq.symm⟩

end Modules

end Store

/-- Code reaches a variable of a loose table only from an activation that runs on it. -/
theorem Route.Leads.scope {W : Stock} {m : Machine} (hm : m.Sound W) (htidy : m.store.Tidy)
    (hdirect : via.Direct) {c : CellId} (h : via.Leads m 0 c) {t : TableId}
    (ht : m.store.HasTable t) (hloose : m.store.Loose t) {n : String} (hc : m.store.Binds t n c)
    (hv : m.store.cell c = .var v) :
    ∃ a, m.stack.head? = some a ∧ t ∈ a.scopes := by
  cases via with
  | name x =>
    have hlookup : m.lookup x = some c := h
    rw [Machine.lookup, Option.bind_eq_some_iff] at hlookup
    obtain ⟨a, ha, hin⟩ := hlookup
    obtain ⟨t', ht', hbinds⟩ :=
      Store.binds_of_lookupIn hm.store.toWellformed (hm.head ha).scopes hin
    rw [← hloose.only htidy hc hbinds hv] at ht'
    exact ⟨a, ha, ht'⟩
  | member accessor target x =>
    obtain ⟨i, rfl, -⟩ := ht
    obtain ⟨t', hbinds, hne⟩ := Store.member_not_loose htidy h.2
    exact absurd (hloose.only htidy hc hbinds hv).symm (hne i hloose)
  | table t x => exact hdirect.elim
  | operator target op => exact hdirect.elim
  | view x => exact hdirect.elim

section Capturing

variable {W : Stock} {α β : Type} {m m₁ : Machine} {p : Moment} {a : Activation}

/-- A program that declares a closure copies the main activation. -/
theorem Eval.runSource_captures (hm : m.Sound W) {name text : String} {params : List String}
    {body : Block} {span : Span}
    (hsrc : parse src = .ok [.mk (.val name (.closure params body)) span text])
    (ha : m.stack.head? = some a) (d : Nat) :
    ⟨.captures a, m.note (.executing src.title)⟩ ∈
      (runSource (.ofDepth (d + 1)) src).moments m := by
  have hnoted : (m.note (.executing src.title)).Sound W := hm.withStack hm.stack m.sink _
  obtain ⟨v, hnothing⟩ := nothing_run hnoted (.ofDepth (d + 1))
  have hnote : note (.executing src.title) m = .done () (m.note (.executing src.title)) := rfl
  refine mem_bind_right hnote ?_
  rw [hsrc]
  refine mem_bind_left (mem_bind_right hnothing (mem_bind_left (mem_bind_right (a := ()) rfl ?_)))
  rw [moments_onError]
  refine List.mem_append.mpr (Or.inl (mem_bind_left (mem_bind_right (a := ()) rfl ?_)))
  rw [List.head?_eq_getElem?] at ha
  have hpeek : peek 0 (m.note (.executing src.title)) =
      .done a (m.note (.executing src.title)) := by
    simp [peek, quiet, Machine.note, ha]
  exact mem_bind_right hpeek (mem_bind_left (by simp))

/-- An instance of a class without a call operator is made to answer calls. -/
theorem Eval.answerCall_built {n : Nat} {c o : ObjectId} {kind : Kind} {b : Blueprint}
    {t : List Moment} (h : Built m.store n c o kind t) (hc : m.store.kind c = .ofClass b)
    (hb : ∀ code ∈ b.operators, code.name ≠ "()") :
    ∃ m', answerCall o m = .done () m' ∧ m'.store.kind o = kind := by
  obtain ⟨b', hb', hlists, -⟩ := h.top.filled
  cases hc.symm.trans hb'
  have hfree : m.store.local? (.part o .operators) "()" = none := by
    refine List.lookup_eq_none_iff.mpr fun p hp => ?_
    have hmem := List.mem_map_of_mem (f := (·.1)) (List.mem_reverse.mpr hp)
    rw [(hlists .operators).names, Blueprint.entries, List.map_map] at hmem
    obtain ⟨code, hcode, heq⟩ := List.mem_map.mp hmem
    rw [bne_iff_ne, ← heq]
    exact (hb code hcode).symm
  have hrefusal : m.store.refusal? (.part o .operators) "()" = none := by
    have haccepts : (m.store.rule (.part o .operators)).accepts "()" = true := accepts_call
    simp [Store.refusal?, haccepts, hfree]
  refine ⟨_, defineConst_run (s := m.store) hrefusal m, ?_⟩
  rw [(m.store.addConst_grows _ _ _ (h.has.holds _) hfree).kind o h.has, h.kind]

/-- A closure expression copies the running activation, and gives a closure over the copy. -/
theorem Machine.Reachable.evaluate_closure (h : Reachable m) (ha : m.stack.head? = some a) (d : Nat)
    (params : List String) (body : Block) :
    ∃ o m', Eval.evaluate (.ofDepth (d + 1)) (.closure params body) m = .done o m' ∧
      ((Eval.evaluate (.ofDepth (d + 1)) (.closure params body)).moments m).head? =
        some ⟨.captures a, m⟩ ∧
      m'.store.kind o = .closure (.block "<closure>" params body
        (some (m.store.captureActivation a).1.home)) (m.store.captureActivation a).1 := by
  let m₁ := Moment.after ⟨.captures a, m⟩
  let K := (m.store.captureActivation a).1
  let code : Code := .block "<closure>" params body (some K.home)
  have hon : Onward .any 0 m m₁ := Moment.onward (p := ⟨.captures a, m⟩) ha h.sound
  have hpayload : m₁.store.Payload .any (.closure code K) := by
    have hfits := (Store.captureActivation_adds h.sound.store (h.sound.head ha)).2
    refine ⟨⟨?_, hfits⟩, by simp [Store.NoClass]⟩
    exact Eval.methodCode_fits hfits.home "<closure>" params (Stock.any_block body)
  -- The class of closures is there, and has no call operator of its own.
  obtain ⟨i, v, b, -, -, hi, hv, hb, -, -, -, hcall⟩ := h.derived (show "Closure" ∈ _ by decide)
  obtain ⟨i', v', hi', hv', hsimple⟩ := h.simple (show "Closure" ∈ _ by decide)
  cases hi.symm.trans hi'
  cases hv.symm.trans hv'
  have hclass : Eval.builtin (.ofDepth (d + 1)) "Closure" m₁ = .done v m₁ := by
    refine Eval.builtin_run (hon.grows.bound _ _ _ hi) (hon.grows.const ?_ hv) _
    exact h.sound.store.toWellformed.hasCell_of_local? hi
  obtain ⟨o, m₂, hmake, -⟩ := (Eval.Backed.refl m₁).instantiate_simple hon.sound
    (hsimple.mono hon.grows) (d := d + 1) (by omega) (.closure code K)
  have hgoes := Eval.instantiate_goes (good_ofDepth .any (d + 1)) hon.sound.ready
    (c := v) hpayload
  obtain ⟨hpath, -, hbuilt⟩ := hgoes.done hmake
  have hgrows := (hpath.onward hon.sound.ready).grows
  obtain ⟨m₃, hanswer, hkind⟩ := Eval.answerCall_built hbuilt
    (hgrows.kind_of_ne (hon.grows.kind_of_ne hb (by simp)) (by simp)) hcall
  have hinstance : Eval.instanceOf (.ofDepth (d + 1)) "Closure" (.closure code K) m₁ =
      .done o m₂ := by
    rw [Eval.instanceOf, bind_run_done hclass, hmake]
  have hpeek : peek 0 m = .done a m := by
    rw [List.head?_eq_getElem?] at ha
    simp [peek, quiet, ha]
  have htouch : touch (.captures a) m = .done () m := rfl
  have hcapture : make (·.captureActivation a) m = .done K m₁ := rfl
  refine ⟨o, m₃, ?_, ?_, hkind⟩
  · rw [Eval.evaluate, Eval.declareClosure, bind_run_done hpeek, bind_run_done htouch,
      bind_run_done hcapture, Eval.makeClosure, bind_run_done hinstance, bind_run_done hanswer]
    rfl
  · rw [Eval.evaluate, Eval.declareClosure, moments_bind_done hpeek, moments_bind_done htouch,
      moments_touch, peek, moments_quiet]
    rfl

end Capturing

def Activation.Shares (a b : Activation) : Prop := ∃ t ∈ a.scopes, t ∈ b.scopes

namespace Machine

variable {m m' : Machine} {t t₁ t₂ : List Moment} {p w : Moment} {F K : Activation}

/-- At the moment `p` the activation `F` was copied to `K`, and the run came to `m'` by the moments
`t` after it. -/
structure Captured (F K : Activation) (p : Moment) (t : List Moment) (m' : Machine) : Prop where
  running : p.machine.stack.head? = some F
  tidy : p.machine.store.Tidy
  sound : p.machine.Sound .any
  adjoins : p.machine.store.Adjoins p.after.store
  scopes : List.Forall₂ (p.machine.store.TableCopy p.after.store) F.scopes K.scopes
  home : p.machine.store.TableCopy p.after.store F.home K.home
  soundAfter : p.after.Sound .any
  passage : Passage p.after t m'
  spares : p.after.store.Spares p.machine.store.Holds m'.store

theorem Later.captured (h : Later m (t₁ ++ p :: t₂) m') (hp : p.deed = .captures F) :
    Captured F (p.machine.store.captureActivation F).1 p t₂ m' := by
  obtain ⟨hsound, hhonest, hpassage⟩ := h.passage.2.split h.passage.1 rfl
  have htidy := h.cut.reachable.tidy
  have hrunning : p.machine.stack.head? = some F := by
    rw [Moment.Honest, hp] at hhonest
    exact hhonest
  have hafter : p.after.store = (p.machine.store.captureActivation F).2 := by
    rw [Moment.after, hp]
  obtain ⟨hadjoins, hscopes, hhome⟩ := Store.captureActivation_copy htidy F
  rw [← hafter] at hadjoins hscopes hhome
  exact ⟨hrunning, htidy, hsound, hadjoins, hscopes, hhome, (Moment.onward hhonest hsound).sound,
    hpassage, h.frozen (by simp) F hp⟩

namespace Captured

variable {n : String} {c : CellId} {x : TableId}

variable (h : Captured F K p t m')
include h

theorem table (hx : x ∈ K.home :: K.scopes) :
    ¬ p.machine.store.Holds x ∧ p.after.store.HasTable x := by
  rcases List.mem_cons.mp hx with rfl | hx
  · exact ⟨h.home.fresh, h.home.has⟩
  · obtain ⟨i, hi, rfl⟩ := List.mem_iff_getElem.mp hx
    have hcopy := h.scopes.get (by rw [h.scopes.length_eq]; exact hi) hi
    exact ⟨hcopy.fresh, hcopy.has⟩

theorem scope (hx : x ∈ K.scopes) :
    ¬ p.machine.store.Holds x ∧ p.after.store.HasTable x := h.table (List.mem_cons_of_mem _ hx)

/-- The copy gets no new names. -/
theorem bindings_eq (hx : x ∈ K.home :: K.scopes) :
    m'.store.bindings x = p.after.store.bindings x :=
  h.spares.kept x (h.table hx).2.holds (h.table hx).1

theorem sound_later : m'.Sound .any :=
  (h.passage.onward h.soundAfter).sound

theorem lookupIn_eq (n : String) :
    m'.store.lookupIn K.scopes n = p.after.store.lookupIn K.scopes n :=
  Store.lookupIn_eq h.soundAfter.store.toWellformed h.sound_later.store.toWellformed
    h.spares.grows.sizes (fun _ hx => (h.scope hx).2)
    (fun _ hx => h.bindings_eq (List.mem_cons_of_mem _ hx)) n

theorem copy (n : String) :
    Option.Rel (p.machine.store.CellCopy p.after.store) (p.machine.store.lookupIn F.scopes n)
      (p.after.store.lookupIn K.scopes n) := by
  have hF := h.sound.head h.running
  refine Store.lookupIn_copy h.scopes (fun x hx => ?_) (fun x hx => ?_) n
  · exact ⟨(hF.scopes x hx).holds, h.sound.store.toWellformed.outer_nil (hF.scopes x hx)⟩
  · exact h.soundAfter.store.toWellformed.outer_nil (h.scope hx).2

theorem contentIn_eq (n : String) :
    p.after.store.contentIn K.scopes n = p.machine.store.contentIn F.scopes n := by
  have hcopy := h.copy n
  rw [Store.contentIn, Store.contentIn]
  generalize p.machine.store.lookupIn F.scopes n = a at hcopy
  generalize p.after.store.lookupIn K.scopes n = b at hcopy
  cases hcopy with
  | none => rfl
  | some hcell => exact congrArg some hcell.content

/-- What was captured is found as before. -/
theorem lookupIn_source (n : String) :
    p.after.store.lookupIn F.scopes n = p.machine.store.lookupIn F.scopes n := by
  have hF := h.sound.head h.running
  exact Store.lookupIn_eq h.sound.store.toWellformed h.soundAfter.store.toWellformed
    h.adjoins.sizes hF.scopes (fun x hx => h.adjoins.bindings_eq (hF.scopes x hx).holds) n

theorem contentIn_source (n : String) :
    p.after.store.contentIn F.scopes n = p.machine.store.contentIn F.scopes n := by
  rw [Store.contentIn, Store.contentIn, h.lookupIn_source]
  cases hc : p.machine.store.lookupIn F.scopes n with
  | none => rfl
  | some c =>
    obtain ⟨x, -, hbinds⟩ := Store.binds_of_lookupIn h.sound.store.toWellformed
      (h.sound.head h.running).scopes hc
    exact congrArg some (h.adjoins.content c (h.tidy.bound _ _ _ hbinds))

/-- A view is shared by the copy. -/
theorem view (hc : p.machine.store.lookupIn F.scopes n = some c) {x : CellId}
    (hx : p.machine.store.cell c = .view x) :
    m'.store.lookupIn K.scopes n = some c ∧ m'.store.cell c = .view x := by
  have hcopy := h.copy n
  rw [hc, ← h.lookupIn_eq n] at hcopy
  cases hlookup : m'.store.lookupIn K.scopes n with
  | none =>
    rw [hlookup] at hcopy
    cases hcopy
  | some c' =>
    rw [hlookup] at hcopy
    cases hcopy with
    | some hcell =>
      obtain rfl := hcell.shared (by simp [hx])
      exact ⟨rfl, (h.adjoins.grows.trans h.spares.grows).view hx⟩

theorem loose (hx : x ∈ K.scopes) : m'.store.Loose x :=
  Store.loose_of_captured h.tidy h.adjoins h.spares (h.scope hx).1 (h.scope hx).2.holds

/-- A name of the copy is bound in one of its tables. -/
theorem binds (hc : m'.store.lookupIn K.scopes n = some c) : ∃ x ∈ K.scopes, m'.store.Binds x n c :=
  Store.binds_of_lookupIn h.sound_later.store.toWellformed
    (fun _ hx => (h.scope hx).2.mono h.spares.grows.sizes) hc

/-- Whoever assigns a variable of the copy runs on a table of the copy. -/
theorem shares (hdirect : via.Direct) (hleads : via.Leads m' 0 c)
    (hc : m'.store.lookupIn K.scopes n = some c) (hv : m'.store.cell c = .var v) :
    ∃ b, m'.stack.head? = some b ∧ b.Shares K := by
  obtain ⟨x, hx, hbinds⟩ := h.binds hc
  have htable := (h.scope hx).2.mono h.spares.grows.sizes
  obtain ⟨b, hb, hin⟩ :=
    hleads.scope h.sound_later h.spares.tidy hdirect htable (h.loose hx) hbinds hv
  exact ⟨b, hb, x, hin, hx⟩

/-- A variable that is bound in a table younger than the copy's source is none of the source. -/
theorem source_apart (hx : ¬ p.machine.store.Holds x) (hbinds : m'.store.Binds x n c)
    (hv : m'.store.cell c = .var v) (n' : String) : m'.store.lookupIn F.scopes n' ≠ some c := by
  intro hc
  have hF := h.sound.head h.running
  have hsizes := h.adjoins.sizes.trans h.spares.grows.sizes
  obtain ⟨y, hy, hbinds'⟩ := Store.binds_of_lookupIn h.sound_later.store.toWellformed
    (fun x hx => (hF.scopes x hx).mono hsizes) hc
  rcases (h.spares.tidy.single x n y n' c v hbinds hbinds' hv).2 with rfl | htwins
  · exact hx (hF.scopes x hy).holds
  · exact hx (Store.twins_age h.tidy h.adjoins h.spares htwins (hF.scopes y hy).holds)

end Captured

/-- At an assignment that was made after a capture: how its cell was found, and what is left. -/
theorem Later.assigned {r₁ r₂ : List Moment} (h : Later m (t₁ ++ p :: (r₁ ++ w :: r₂)) m')
    (hp : p.deed = .captures F) {c : CellId} (hw : w.deed = .writes via c v) :
    Captured F (p.machine.store.captureActivation F).1 p r₁ w.machine ∧ via.Direct ∧
      via.Leads w.machine 0 c ∧ w.after.store = w.machine.store.assign c v ∧
      w.after.Sound .any ∧ Passage w.after r₂ m' := by
  have hsplit : t₁ ++ p :: (r₁ ++ w :: r₂) = (t₁ ++ p :: r₁) ++ w :: r₂ := by simp
  have hdirect := h.direct (by rw [hsplit]; simp) hw
  rw [hsplit] at h
  obtain ⟨hsound, hhonest, hpassage⟩ := h.passage.2.split h.passage.1 rfl
  have hleads : via.Leads w.machine 0 c := by
    rw [Moment.Honest, hw] at hhonest
    exact hhonest.1
  have hafter : w.after.store = w.machine.store.assign c v := by rw [Moment.after, hw]
  exact ⟨h.cut.captured hp, hdirect, hleads, hafter, (Moment.onward hhonest hsound).sound, hpassage⟩

/-- As long as no assignment is made on the tables of the copy, it stands for what was captured. -/
theorem Later.contentIn_captured (h : Later m (t₁ ++ p :: t₂) m') (hp : p.deed = .captures F)
    (hK : K = (p.machine.store.captureActivation F).1)
    (hwrites : ∀ w ∈ t₂, ∀ via c v b, w.deed = .writes via c v →
      w.machine.stack.head? = some b → ¬ b.Shares K) (n : String) :
    m'.store.contentIn K.scopes n = p.machine.store.contentIn F.scopes n := by
  subst hK
  have hcaptured := h.captured hp
  rw [← hcaptured.contentIn_eq n, Store.contentIn, Store.contentIn, hcaptured.lookupIn_eq n]
  cases hc : p.after.store.lookupIn (p.machine.store.captureActivation F).1.scopes n with
  | none => rfl
  | some c =>
    have hgrows := hcaptured.spares.grows
    have hhas : p.after.store.HasCell c := by
      obtain ⟨x, -, hbinds⟩ := Store.binds_of_lookupIn hcaptured.soundAfter.store.toWellformed
        (fun _ hx => (hcaptured.scope hx).2) hc
      exact hcaptured.adjoins.tidy.bound _ _ _ hbinds
    refine congrArg some ?_
    rcases hgrows.content c hhas with heq | ⟨old, new, hold, -⟩
    · exact heq
    -- A variable of the copy holds something else only if it is assigned.
    refine hcaptured.passage.cell_eq hcaptured.soundAfter hhas fun w hw via v hdeed => ?_
    obtain ⟨r₁, r₂, rfl⟩ := List.append_of_mem hw
    obtain ⟨hbefore, hdirect, hleads, -⟩ := h.assigned hp hdeed
    obtain ⟨v', hv'⟩ := hbefore.spares.grows.var hhas hold
    obtain ⟨b, hb, hshares⟩ :=
      hbefore.shares hdirect hleads ((hbefore.lookupIn_eq n).trans hc) hv'
    exact hwrites w hw via c v b hdeed hb hshares

section Sample

def isClosure (src : Source) : Bool :=
  match parse src with
  | .ok [.mk (.val _ (.closure _ _)) _ _] => true
  | _ => false

theorem isClosure_sound (h : isClosure src = true) : ∃ name params body span text,
    parse src = .ok [.mk (.val name (.closure params body)) span text] := by
  unfold isClosure at h
  split at h
  · exact ⟨_, _, _, _, _, ‹_›⟩
  · cases h

theorem sample_captured : ∃ p F t m' c v o code, Later p.machine (p :: t) m' ∧
    p.deed = .captures F ∧ p.machine.store.contentIn F.scopes "n" = some (.var c) ∧
    m'.store.kind o = .closure code (p.machine.store.captureActivation F).1 ∧
    (∃ i, m'.constant? "i" = some i ∧ m'.store.kind i = .integer 2) ∧
    (∃ j, m'.constant? "j" = some j ∧ m'.store.kind j = .integer 3) ∧
    m'.store.contentIn F.scopes "n" = some (.var v) ∧ m'.store.kind v = .integer 5 := by
  obtain ⟨m, hend, F, hF, c, hc, ⟨old, hold⟩, m₁, h₁, m₂, h₂, o, -, ⟨code, K, hkind, rfl⟩, hi, hj,
    hc', v, hv, hfive⟩ := sample_sequel
  have hm : After [sampleSource] m := .next .start 24 sampleSource hend
  have hclosure : isClosure closureSource = true := by decide +kernel
  obtain ⟨name, params, body, span, text, hsrc⟩ := isClosure_sound hclosure
  have hmem := Eval.runSource_captures (hm.sound (Stock.any_covers _)) hsrc hF 23
  obtain ⟨before, t, hmoments⟩ := List.append_of_mem hmem
  have hended := Ended.finish hm 24 closureSource hmoments h₁
  refine ⟨_, F, _, m₂, old, v, o, code, .ended (.next hended 24 callingSource h₂), rfl, ?_,
    hkind, hi, hj, ?_, hfive⟩
  · exact Option.map_eq_some_iff.mpr ⟨c, hc, hold⟩
  · exact Option.map_eq_some_iff.mpr ⟨c, hc', hv⟩

end Sample

/-- Over every run, for the copy `K` that a closure gets of the running activation `F`, and for
everything that comes after the capture. `K` has new tables, and a name stands for the same in `K`
as in `F` and reads the same. The closure expression that made the copy gives a closure over it. An
assignment made by an activation that has no scope in common with `K` changes nothing that a name
stands for in `K`, and an assignment to a binding of `K`, or to any other binding in a table that is
newer than the capture, changes nothing that a name stands for in `F`. An imported name goes on to
read what the module now has for it. The tables of `K` bind the same names to the same cells for
ever, and a call of the closure runs on them and reads what was assigned to them last. -/
theorem closures_keep_snapshots (h : Later m (t₁ ++ p :: t₂) m') (hp : p.deed = .captures F)
    (hK : K = (p.machine.store.captureActivation F).1) :
    (p.machine.stack.head? = some F ∧ (∀ x ∈ K.home :: K.scopes, ¬ p.machine.store.Holds x) ∧
      ∀ n, p.after.store.contentIn F.scopes n = p.machine.store.contentIn F.scopes n ∧
        p.after.store.contentIn K.scopes n = p.machine.store.contentIn F.scopes n ∧
        ∀ c c', p.after.store.lookupIn F.scopes n = some c →
          p.after.store.lookupIn K.scopes n = some c' → ∀ k receiver,
            Eval.readCell k c' receiver p.after = Eval.readCell k c receiver p.after) ∧
    (∀ d params body, ∃ o q,
      Eval.evaluate (.ofDepth (d + 1)) (.closure params body) p.machine = .done o q ∧
      ((Eval.evaluate (.ofDepth (d + 1)) (.closure params body)).moments p.machine).head? = some p ∧
      q.store.kind o = .closure (.block "<closure>" params body (some K.home)) K) ∧
    (∀ w ∈ t₂, ∀ via c v, w.deed = .writes via c v →
      ((∀ b, w.machine.stack.head? = some b → ¬ b.Shares K) → ∀ n,
        w.after.store.contentIn K.scopes n = w.machine.store.contentIn K.scopes n) ∧
      ∀ x y, ¬ p.machine.store.Holds x → w.machine.store.Binds x y c → ∀ n,
        w.after.store.contentIn F.scopes n = w.machine.store.contentIn F.scopes n) ∧
    ((∀ w ∈ t₂, ∀ via c v b, w.deed = .writes via c v → w.machine.stack.head? = some b →
      ¬ b.Shares K) → ∀ n,
        m'.store.contentIn K.scopes n = p.machine.store.contentIn F.scopes n) ∧
    (∀ n c x, p.machine.store.lookupIn F.scopes n = some c → p.machine.store.cell c = .view x →
      m'.store.lookupIn K.scopes n = some c ∧
      (∃ q y, m'.store.HasModule q ∧ m'.store.Binds q.hidden y x) ∧ ∀ d receiver,
        Eval.readCell (.ofDepth (d + 1)) c receiver m' =
          Eval.readCell (.ofDepth d) x receiver m') ∧
    (∀ x ∈ K.home :: K.scopes, m'.store.bindings x = p.after.store.bindings x) ∧
    ∀ o code, m'.store.kind o = .closure code K → ∀ d receiver args,
      Eval.invoke (.ofDepth d) o receiver args m' =
        withActivation (K.renamed code.name)
          (Eval.runCode (.ofDepth d) m'.runningName o code args) m' ∧
      ∀ r₁ w r₂ via c v old n, t₂ = r₁ ++ w :: r₂ → w.deed = .writes via c v →
        w.machine.store.lookupIn K.scopes n = some c → w.machine.store.cell c = .var old →
        (∀ w' ∈ r₂, ∀ via' v', w'.deed ≠ .writes via' c v') →
          Eval.getName (.ofDepth d) n (m'.push (K.renamed code.name)) =
            .done v (m'.push (K.renamed code.name)) := by
  have hcaptured := h.captured hp
  rw [← hK] at hcaptured
  refine ⟨⟨hcaptured.running, fun x hx => (hcaptured.table hx).1, fun n => ?_⟩,
    fun d params body => ?_, ?_, h.contentIn_captured hp hK, ?_,
    fun x hx => hcaptured.bindings_eq hx, ?_⟩
  · have hcontent := hcaptured.contentIn_eq n
    refine ⟨hcaptured.contentIn_source n, hcontent, fun c c' hc hc' k receiver => ?_⟩
    rw [← hcaptured.contentIn_source n, Store.contentIn, Store.contentIn, hc, hc'] at hcontent
    simp only [Eval.readCell, bind_run, see, quiet, Option.some.inj hcontent]
    split <;> rfl
  · obtain ⟨sources, m₀, _, _, hafter, hmem⟩ := h.of_program (p := p) (by simp)
    obtain ⟨deed, q⟩ := p
    obtain rfl : deed = .captures F := hp
    rw [hK]
    exact (Reachable.of_moment hafter hmem).evaluate_closure hcaptured.running d params body
  · intro w hw via c v hdeed
    obtain ⟨r₁, r₂, rfl⟩ := List.append_of_mem hw
    obtain ⟨hbefore, hdirect, hleads, hafter, -⟩ := h.assigned hp hdeed
    rw [← hK] at hbefore
    rw [hafter]
    refine ⟨fun hapart n => ?_, fun x y hx hbinds n => ?_⟩
    · refine Store.contentIn_assign (fun old hold hc => ?_) v
      obtain ⟨b, hb, hshares⟩ := hbefore.shares hdirect hleads hc hold
      exact hapart b hb hshares
    · exact Store.contentIn_assign (fun old hold => hbefore.source_apart hx hbinds hold n) v
  · intro n c x hc hview
    obtain ⟨hlookup, hcell⟩ := hcaptured.view hc hview
    refine ⟨hlookup, hcaptured.spares.tidy.views c x hcell, fun d receiver => ?_⟩
    rw [Eval.readCell, bind_run]
    simp only [see, quiet, hcell]
    rfl
  · intro o code hkind d receiver args
    refine ⟨?_, ?_⟩
    · simp only [Eval.invoke, bind_run, see, quiet, hkind, Eval.callClosure, Routine.read]
    rintro r₁ w r₂ via c v old n rfl hdeed hc hold hlast
    obtain ⟨hbefore, -, -, hafter, hsound, hpassage⟩ := h.assigned hp hdeed
    rw [← hK] at hbefore
    obtain ⟨x, -, hbinds⟩ := hbefore.binds hc
    have hhas : w.after.store.HasCell c := by
      rw [hafter]
      exact (hbefore.spares.tidy.bound _ _ _ hbinds).mono (Store.assign_grows _ c v).sizes
    have hcell : m'.store.cell c = .var v := by
      rw [hpassage.cell_eq hsound hhas hlast, hafter]
      exact Store.cell_assign_self hold v
    refine Eval.getName_var (c := c) ?_ hcell
    exact ((hcaptured.lookupIn_eq n).trans (hbefore.lookupIn_eq n).symm).trans hc

/-- One program declares a variable, the next one a closure that counts it, and a third one assigns
the variable and calls the closure twice: it has counted on from the snapshot, and the variable
holds what was assigned. -/
theorem closures_keep_snapshots_sample : ∃ p F K t m' old v o code,
    Later p.machine (p :: t) m' ∧ p.deed = .captures F ∧
    K = (p.machine.store.captureActivation F).1 ∧
    p.machine.store.contentIn F.scopes "n" = some (.var old) ∧
    p.after.store.contentIn K.scopes "n" = some (.var old) ∧
    (∃ x q, Eval.evaluate (.ofDepth 24) (.closure [] []) p.machine = .done x q ∧
      q.store.kind x = .closure (.block "<closure>" [] [] (some K.home)) K) ∧
    m'.store.kind o = .closure code K ∧
    (∀ d args, Eval.invoke (.ofDepth d) o none args m' = withActivation (K.renamed code.name)
      (Eval.runCode (.ofDepth d) m'.runningName o code args) m') ∧
    (∃ i, m'.constant? "i" = some i ∧ m'.store.kind i = .integer 2) ∧
    (∃ j, m'.constant? "j" = some j ∧ m'.store.kind j = .integer 3) ∧
    m'.store.contentIn F.scopes "n" = some (.var v) ∧ m'.store.kind v = .integer 5 ∧
    ∀ x ∈ K.home :: K.scopes, m'.store.bindings x = p.after.store.bindings x := by
  obtain ⟨p, F, t, m', old, v, o, code, hlater, hp, hold, hkind, hi, hj, hv, hfive⟩ :=
    sample_captured
  have hlater' : Later p.machine ([] ++ p :: t) m' := hlater
  obtain ⟨⟨-, -, hsame⟩, hmakes, -, -, -, hbindings, hcalls⟩ :=
    closures_keep_snapshots hlater' hp rfl
  obtain ⟨x, q, hmade, -, hover⟩ := hmakes 23 [] []
  exact ⟨p, F, _, t, m', old, v, o, code, hlater, hp, rfl, hold, (hsame "n").2.1.trans hold,
    ⟨x, q, hmade, hover⟩, hkind, fun d args => (hcalls o code hkind d none args).1, hi, hj, hv,
    hfive, hbindings⟩

end Machine

end ObjectLang
