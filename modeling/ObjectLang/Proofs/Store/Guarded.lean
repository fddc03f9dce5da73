import ObjectLang.Proofs.Store.Copy
import ObjectLang.Proofs.Store.Simple

/-!
Stores that keep the reading of members to themselves.
The method behind the operator `.` looks at the activation that calls it and takes its argument for
a string. Programs never get hold of it, nor of a method that refuses an operator: among operators
alone are they bound, besides to themselves as the answer to a call. All code in the store is called
with as many arguments as it takes for granted, operators are code, and setters are written in the
language. So are getters and the operator `.`, where they are not the machine's own. Modules and
their aliases have no operators of their own.
-/
namespace ObjectLang

/-- The number of arguments that a primitive takes for granted. -/
def Primitive.needs : Primitive → Nat
  | .member | .isa | .concat | .replicate | .print | .arithmetic _ => 1
  | _ => 0

def TableId.isFree : TableId → Bool
  | .free _ => true
  | .part .. => false

theorem TableId.exists_of_isFree {t : TableId} (h : t.isFree = true) : ∃ i, t = .free i := by
  cases t with
  | free i => exact ⟨i, rfl⟩
  | part o p => cases h

theorem TableId.ne_part {t : TableId} (h : t.isFree = true) (o : ObjectId) (p : Part) :
    t ≠ .part o p := by
  rintro rfl
  cases h

namespace Code

def looks (c : Code) : Bool :=
  match c.body with
  | .primitive .member => true
  | _ => false

/-- Whether programs never get hold of a method with the code: it reads members for its caller, or
refuses an operator. -/
def hides (c : Code) : Bool :=
  match c.body with
  | .primitive .member | .primitive (.unsupported _) => true
  | _ => false

theorem hides_of_looks {c : Code} (h : c.looks = true) : c.hides = true := by
  unfold looks at h
  split at h
  · next hbody => rw [hides, hbody]
  · cases h

def isBlock (c : Code) : Bool :=
  match c.body, c.params with
  | .block _, .fixed _ => true
  | _, _ => false

/-- Whether a getter may have the code: it is written in the language, or it tells something of its
receiver. -/
def tells (c : Code) : Bool :=
  match c.body, c.params with
  | .block _, .fixed _ => true
  | .primitive p, .fixed _ => p ∈ [.describe, .typeOf, .identity, .definitionName]
  | _, .any => false

def reads (c : Code) : Bool := c.isBlock || c.same .memberRead

/-- The code raises nothing of its choice, is called with the arguments that it takes for granted,
and runs on a table that stands on its own. -/
def apt (c : Code) : Bool :=
  c.home.all TableId.isFree &&
    match c.body with
    | .primitive (.raise _) | .primitive .callerText => false
    | .primitive p => p.needs ≤ c.arity.getD 0
    | .block _ => true

def Fair (c : Code) : Prop := c.apt = true ∧ c.hides = false

instance (c : Code) : Decidable c.Fair := inferInstanceAs (Decidable (_ ∧ _))

theorem Fair.unread {P : Prop} {c : Code} (h : c.Fair) (hlooks : c.looks = true) : P := by
  have hides := h.2
  rw [hides_of_looks hlooks] at hides
  cases hides

theorem fair_block {name : String} {params : List String} {b : Block} {home : Option TableId}
    (h : home.all TableId.isFree = true) : (block name params b home).Fair :=
  ⟨by simpa [apt, block] using h, rfl⟩

end Code

namespace Store

def MethodBy (s : Store) (sort : Code → Bool) (f : ObjectId) : Prop :=
  ∃ owner code, s.kind f = .method owner code ∧ sort code = true

/-- An object that programs may get hold of. -/
def Ordinary (s : Store) (o : ObjectId) : Prop := s.HasObject o ∧ ¬ s.MethodBy Code.hides o

def Discreet (s : Store) (c : CellId) : Prop :=
  s.HasCell c ∧ ∀ f, s.cell c = .const f → ¬ s.MethodBy Code.hides f

def Bearer (s : Store) (o : ObjectId) : Prop := s.HasObject o ∧ s.isModule o = false

/-- What a level may answer an operator with: a method, or itself if it is called. -/
def Performs (s : Store) (o : ObjectId) (op : String) (f : ObjectId) : Prop :=
  s.MethodBy (fun _ => true) f ∨ op = "()" ∧ o = f ∧ (s.kind f).Callable

end Store

/-- Programs may get hold of all the roots. -/
structure Roots.Ordinary (r : Roots) (s : Store) : Prop where
  root : s.Ordinary r.root
  type : s.Ordinary r.type
  method : s.Ordinary r.method
  class_ : s.Ordinary r.class_
  module_ : s.Ordinary r.module_

/-- An activation that has a scope to bind names in, and in which no text is recorded twice. -/
structure Activation.Sturdy (s : Store) (a : Activation) : Prop where
  owner : s.Ordinary a.owner
  inner : a.scopes ≠ []
  scopes : ∀ t ∈ a.scopes, t.isFree = true
  home : a.home.isFree = true
  notes : a.notes.Nodup

structure PropertyPlan.Apt (p : PropertyPlan) : Prop where
  getter : ∀ c ∈ p.getter, c.Fair ∧ c.tells = true
  setter : ∀ c ∈ p.setter, c.Fair ∧ c.isBlock = true

structure Blueprint.Apt (s : Store) (b : Blueprint) : Prop where
  base : ∀ c ∈ b.base, s.Ordinary c
  operators : ∀ c ∈ b.operators, c.apt = true ∧ (c.looks = true → c.name = ".") ∧
    (c.name = "." → c.reads = true)
  methods : ∀ c ∈ b.methods, c.Fair
  properties : ∀ p ∈ b.properties, p.Apt
  home : b.home.all TableId.isFree = true

def Kind.isValue : Kind → Bool
  | .method .. | .ofModule _ | .moduleAlias .. => false
  | _ => true

def Kind.Apt (s : Store) : Kind → Prop
  | .ofClass b => b.Apt s
  | .method owner code => s.Ordinary owner ∧ code.apt = true
  | .function code => code.Fair
  | .closure code captured => code.Fair ∧ captured.Sturdy s
  | .ofModule p | .moduleAlias _ p => p.hidden.isFree = true ∧ p.shown.isFree = true
  | _ => True

def Cell.Apt (s : Store) : Cell → Prop
  | .var v => s.Ordinary v
  | .const v => s.HasObject v
  | .computed getter setter => (s.Ordinary getter ∧ s.MethodBy Code.tells getter) ∧
    ∀ f ∈ setter, s.Ordinary f ∧ s.MethodBy Code.isBlock f
  | .view c => s.Discreet c

variable {b : String × CellId} {a : Activation}

namespace Store

/-- A table may bind the name to the cell. -/
structure Allows (s : Store) (t : TableId) (b : String × CellId) : Prop where
  has : s.HasCell b.2
  kept : ∀ f, s.cell b.2 = .const f → s.MethodBy Code.hides f → ∃ o, t = .part o .operators ∧
    ((s.MethodBy Code.looks f → b.1 = ".") ∧ o ≠ f ∨ b.1 = "()" ∧ o = f)
  operator : ∀ o, t = .part o .operators → ∃ f, s.cell b.2 = .const f ∧ s.Performs o b.1 f ∧
    (b.1 = "." → s.MethodBy Code.reads f)
  bearer : ∀ o, t = .part o .operators → s.Bearer o

structure Guarded (s : Store) : Prop where
  kinds : ∀ o, (s.kind o).Apt s
  cells : ∀ c, s.HasCell c → (s.cell c).Apt s
  bindings : ∀ t, ∀ b ∈ s.bindings t, s.Allows t b
  below : ∀ o, ∀ l ∈ (s.object o).below, s.Ordinary l
  face : ∀ o f, (s.object o).face = some f → f = o ∨ s.Ordinary f
  type : ∀ o t, s.type o = some t → s.Ordinary t
  outer : ∀ i, (s.table i).outer = []

variable {s s' : Store} {o v : ObjectId} {c : CellId} {t : TableId} {name : String}

theorem MethodBy.of_kind {sort : Code → Bool} {owner : ObjectId} {code : Code}
    (h : s.MethodBy sort o) (hkind : s.kind o = .method owner code) : sort code = true := by
  obtain ⟨_, _, hmethod, hsort⟩ := h
  cases hmethod.symm.trans hkind
  exact hsort

theorem methodBy_grows (hg : s.Grows s') (ho : s.HasObject o) (sort : Code → Bool) :
    s'.MethodBy sort o ↔ s.MethodBy sort o := by
  rw [MethodBy, MethodBy, hg.kind o ho]

theorem MethodBy.hides (h : s.MethodBy Code.looks o) : s.MethodBy Code.hides o := by
  obtain ⟨owner, code, hkind, hlooks⟩ := h
  exact ⟨owner, code, hkind, Code.hides_of_looks hlooks⟩

theorem Ordinary.mono (h : s.Ordinary o) (hg : s.Grows s') : s'.Ordinary o :=
  ⟨h.1.mono hg.sizes, by rw [methodBy_grows hg h.1]; exact h.2⟩

/-- What is no method may be got hold of. -/
theorem ordinary_of_kind (ho : s.HasObject o) (h : ∀ owner code, s.kind o ≠ .method owner code) :
    s.Ordinary o := ⟨ho, fun ⟨owner, code, hkind, _⟩ => h owner code hkind⟩

theorem Ordinary.elim {P : Prop} (h : s.Ordinary o) (hides : s.MethodBy Code.hides o) : P :=
  (h.2 hides).elim

theorem Ordinary.unread {P : Prop} (h : s.Ordinary o) (hlooks : s.MethodBy Code.looks o) : P :=
  h.elim hlooks.hides

theorem Ordinary.discreet (h : s.Ordinary v) (hc : s.HasCell c) (hv : s.cell c = .const v) :
    s.Discreet c := by
  refine ⟨hc, fun f hf => ?_⟩
  rw [hv] at hf
  cases hf
  exact h.2

/-- A constant cell holds what it held before. -/
theorem Grows.const_of (hg : s.Grows s') (hc : s.HasCell c) (hv : s'.cell c = .const v) :
    s.cell c = .const v := by
  rcases hg.content c hc with h | ⟨old, new, -, h⟩
  · rw [← h, hv]
  · rw [h] at hv
    cases hv

theorem Discreet.mono (h : s.Discreet c) (hs : s.Guarded) (hg : s.Grows s') : s'.Discreet c := by
  refine ⟨h.1.mono hg.sizes, fun f hf => ?_⟩
  have hold := hg.const_of h.1 hf
  have hhas := hs.cells c h.1
  rw [hold] at hhas
  rw [methodBy_grows hg hhas]
  exact h.2 f hold

theorem Callable.mono (hg : s.Grows s') (h : (s.kind o).Callable) : (s'.kind o).Callable := by
  rw [hg.kind o (has_of_kind fun hplain => ?_)]
  · exact h
  · rw [hplain] at h
    exact h

theorem Bearer.mono (h : s.Bearer o) (hg : s.Grows s') : s'.Bearer o :=
  ⟨h.1.mono hg.sizes, by rw [isModule, hg.kind o h.1]; exact h.2⟩

theorem Bearer.of_callable (h : (s.kind o).Callable) : s.Bearer o := by
  refine ⟨has_of_kind fun hplain => ?_, ?_⟩
  · rw [hplain] at h
    exact h
  · rw [isModule]
    cases hkind : s.kind o with
    | ofModule p =>
      rw [hkind] at h
      exact h.elim
    | moduleAlias target p =>
      rw [hkind] at h
      exact h.elim
    | _ => rfl

theorem MethodBy.mono {sort : Code → Bool} (h : s.MethodBy sort o) (hg : s.Grows s') :
    s'.MethodBy sort o := by
  obtain ⟨owner, code, hkind, hsort⟩ := h
  exact ⟨owner, code, hg.kind_of_ne hkind (by simp), hsort⟩

theorem Performs.mono {op : String} (h : s.Performs o op v) (hg : s.Grows s') :
    s'.Performs o op v :=
  h.imp (·.mono hg) fun ⟨hop, ho, hkind⟩ => ⟨hop, ho, Callable.mono hg hkind⟩

theorem Performs.callable {op : String} (h : s.Performs o op v) : (s.kind v).Callable := by
  rcases h with ⟨owner, code, hkind, -⟩ | ⟨-, -, hkind⟩
  · rw [hkind]
    trivial
  · exact hkind

theorem Allows.mono (h : s.Allows t b) (hs : s.Guarded) (hg : s.Grows s') :
    s'.Allows t b := by
  refine ⟨h.has.mono hg.sizes, fun f hf => ?_, fun o ho => ?_,
    fun o ho => (h.bearer o ho).mono hg⟩
  · have hold := hg.const_of h.has hf
    have hhas := hs.cells b.2 h.has
    rw [hold] at hhas
    rw [methodBy_grows hg hhas, methodBy_grows hg hhas]
    exact h.kept f hold
  · obtain ⟨f, hf, hperforms, hreads⟩ := h.operator o ho
    exact ⟨f, hg.const h.has hf, hperforms.mono hg, fun hname => (hreads hname).mono hg⟩

theorem Discreet.allows (h : s.Discreet c) (ht : ∀ o, t ≠ .part o .operators) (name : String) :
    s.Allows t (name, c) :=
  ⟨h.1, fun f hf hides => absurd hides (h.2 f hf), fun o ho => absurd ho (ht o),
    fun o ho => absurd ho (ht o)⟩

end Store

section Mono

variable {s s' : Store}

theorem Roots.Ordinary.mono {r : Roots} (h : r.Ordinary s) (hg : s.Grows s') : r.Ordinary s' :=
  ⟨h.root.mono hg, h.type.mono hg, h.method.mono hg, h.class_.mono hg, h.module_.mono hg⟩

theorem Activation.Sturdy.mono (h : a.Sturdy s) (hg : s.Grows s') :
    a.Sturdy s' := ⟨h.owner.mono hg, h.inner, h.scopes, h.home, h.notes⟩

theorem Blueprint.Apt.mono {b : Blueprint} (h : b.Apt s) (hg : s.Grows s') : b.Apt s' :=
  ⟨fun c hc => (h.base c hc).mono hg, h.operators, h.methods, h.properties, h.home⟩

theorem Kind.Apt.mono {k : Kind} (h : k.Apt s) (hg : s.Grows s') : k.Apt s' := by
  cases k with
  | ofClass b => exact Blueprint.Apt.mono h hg
  | method owner code => exact ⟨h.1.mono hg, h.2⟩
  | function code => exact h
  | closure code captured => exact ⟨h.1, h.2.mono hg⟩
  | ofModule p => exact h
  | moduleAlias target p => exact h
  | _ => trivial

theorem Cell.Apt.mono {c : Cell} (h : c.Apt s) (hs : s.Guarded) (hg : s.Grows s') : c.Apt s' := by
  cases c with
  | var v => exact Store.Ordinary.mono h hg
  | const v => exact Store.HasObject.mono h hg.sizes
  | computed getter setter =>
    obtain ⟨hgetter, hsetter⟩ := h
    exact ⟨⟨hgetter.1.mono hg, hgetter.2.mono hg⟩,
      fun f hf => ⟨(hsetter f hf).1.mono hg, (hsetter f hf).2.mono hg⟩⟩
  | view c => exact Store.Discreet.mono h hs hg

end Mono

namespace Store.Guarded

variable {s s' : Store} {o f v : ObjectId} {c : CellId} {t : TableId} {name : String}

section

variable (h : s.Guarded)
include h

/-- A store stays guarded when what is new in it is as it may be. -/
theorem of_new (hg : s.Grows s') (hkinds : ∀ o, s'.kind o = s.kind o ∨ (s'.kind o).Apt s')
    (hcells : ∀ c, s'.HasCell c → s.HasCell c ∧ s'.cell c = s.cell c ∨ (s'.cell c).Apt s')
    (hbindings : ∀ t, ∀ b ∈ s'.bindings t, b ∈ s.bindings t ∨ s'.Allows t b)
    (hbelow : ∀ o, ∀ l ∈ (s'.object o).below, l ∈ (s.object o).below ∨ s'.Ordinary l)
    (hface : ∀ o f, (s'.object o).face = some f →
      (s.object o).face = some f ∨ f = o ∨ s'.Ordinary f)
    (htype : ∀ o t, s'.type o = some t → s.type o = some t ∨ s'.Ordinary t)
    (houter : ∀ i, (s'.table i).outer = (s.table i).outer) : s'.Guarded where
  kinds o := by
    rcases hkinds o with heq | hnew
    · rw [heq]
      exact (h.kinds o).mono hg
    · exact hnew
  cells c hc := by
    rcases hcells c hc with ⟨hold, heq⟩ | hnew
    · rw [heq]
      exact (h.cells c hold).mono h hg
    · exact hnew
  bindings t b hb := (hbindings t b hb).elim (fun hold => (h.bindings t b hold).mono h hg) id
  below o l hl := (hbelow o l hl).elim (fun hold => (h.below o l hold).mono hg) id
  face o f hf := by
    rcases hface o f hf with hold | hnew
    · exact (h.face o f hold).imp_right (·.mono hg)
    · exact hnew
  type o t ht := (htype o t ht).elim (fun hold => (h.type o t hold).mono hg) id
  outer i := (houter i).trans (h.outer i)

theorem ordinary_face (ho : s.Ordinary o) : s.Ordinary (s.face o) := by
  rw [Store.face]
  cases hf : (s.object o).face with
  | none => exact ho
  | some f =>
    rcases h.face o f hf with rfl | hordinary
    · exact ho
    · exact hordinary

theorem ordinary_levels (ho : s.Ordinary o) : ∀ l ∈ s.levels o, s.Ordinary l := by
  intro l hl
  rcases List.mem_cons.mp hl with rfl | hl
  · exact ho
  · exact h.below o l hl

theorem ordinary_base (hv : s.base o = some v) : s.Ordinary v :=
  h.below o v (List.mem_of_head? hv)

/-- Whatever is bound in a table other than one of operators gives nothing away. -/
theorem discreet (ht : ∀ o, t ≠ .part o .operators) (hb : b ∈ s.bindings t) : s.Discreet b.2 := by
  have hallows := h.bindings t b hb
  refine ⟨hallows.has, fun f hf hides => ?_⟩
  obtain ⟨o, heq, -⟩ := hallows.kept f hf hides
  exact absurd heq (ht o)

/-- What an object of its own level is looked up in gives nothing away either. -/
theorem discreet_lookup (ht : ∀ o, t ≠ .part o .operators) (hc : s.lookup t name = some c) :
    s.Discreet c := by
  obtain ⟨x, hx, hlocal⟩ := List.exists_of_findSome?_eq_some hc
  refine h.discreet (t := x) (b := (name, c)) ?_ (Binds.of_local? hlocal)
  rcases List.mem_cons.mp hx with rfl | hx
  · exact ht
  · cases t with
    | free i =>
      rw [show s.outer (.free i) = [] from h.outer i] at hx
      cases hx
    | part o p =>
      cases p with
      | fields => cases hx
      | operators => exact absurd rfl (ht o)
      | members =>
        obtain ⟨l, -, rfl⟩ := List.mem_map.mp hx
        simp

theorem discreet_lookupIn {ts : List TableId} (hts : ∀ t ∈ ts, ∀ o, t ≠ .part o .operators)
    (hc : s.lookupIn ts name = some c) : s.Discreet c := by
  obtain ⟨t, ht, hlookup⟩ := List.exists_of_findSome?_eq_some hc
  exact h.discreet_lookup (hts t ht) hlookup

/-- The members of an object are looked up in no table of operators. -/
theorem memberScope_discreet (accessor target : ObjectId) :
    ∀ t ∈ s.memberScope accessor target, ∀ o, t ≠ .part o .operators := by
  intro t ht o
  have hapt := h.kinds target
  cases shows_of_mem ht with
  | members => simp
  | fields => simp
  | hidden hkind =>
    rw [hkind] at hapt
    exact TableId.ne_part hapt.1 o _
  | shown hkind =>
    rcases hkind with hkind | ⟨_, hkind⟩ <;> rw [hkind] at hapt <;>
      exact TableId.ne_part hapt.2 o _

/-- An operator is code of one of the levels, and such that programs may get hold of it unless it is
`.`. -/
theorem operator (hc : s.lookup (.part o .operators) name = some c) :
    ∃ f, s.cell c = .const f ∧ (∃ l ∈ s.levels o, s.Performs l name f) ∧ s.HasObject f ∧
      (s.Ordinary o → s.MethodBy Code.looks f → name = ".") ∧
      (name = "." → s.MethodBy Code.reads f) := by
  obtain ⟨x, hx, hlocal⟩ := List.exists_of_findSome?_eq_some hc
  obtain ⟨l, hl, rfl⟩ : ∃ l ∈ s.levels o, x = .part l .operators := by
    rcases List.mem_cons.mp hx with rfl | hx
    · exact ⟨o, mem_levels_self s o, rfl⟩
    · obtain ⟨l, hl, rfl⟩ := List.mem_map.mp hx
      exact ⟨l, mem_levels_of_below hl, rfl⟩
  have hallows := h.bindings _ _ (Binds.of_local? hlocal)
  obtain ⟨f, hf, hperforms, hreads⟩ := hallows.operator l rfl
  have hhas := h.cells c hallows.has
  rw [hf] at hhas
  refine ⟨f, hf, ⟨l, hl, hperforms⟩, hhas, fun ho hlooks => ?_, hreads⟩
  -- Only a method that looks at its caller is bound to itself, and no level is one.
  obtain ⟨l', heq, ⟨hdot, -⟩ | ⟨-, rfl⟩⟩ := hallows.kept f hf hlooks.hides
  · exact hdot hlooks
  · cases heq
    exact (h.ordinary_levels ho l hl).unread hlooks

theorem newCell {x : Cell} (hx : x.Apt s) : (s.newCell x).2.Guarded := by
  have hg := s.newCell_grows x
  refine h.of_new hg (fun o => ?_) (fun c hc => ?_) ?_ ?_ ?_ ?_ fun _ => rfl
  · exact Or.inl (by simp [kind])
  · rw [cell_newCell]
    split
    · exact Or.inr (hx.mono h hg)
    · next hne =>
      refine Or.inl ⟨?_, rfl⟩
      simp only [HasCell, newCell_cells_size] at hc
      exact Nat.lt_of_le_of_ne (Nat.le_of_lt_succ hc) hne
  all_goals simp only [object_newCell, bindings_newCell, Store.type]
  · exact fun _ _ hb => Or.inl hb
  · exact fun _ _ hl => Or.inl hl
  · exact fun _ _ hf => Or.inl hf
  · exact fun _ _ ht => Or.inl ht

theorem assign (hv : s.Ordinary v) : (s.assign c v).Guarded := by
  have hg := s.assign_grows c v
  refine h.of_new hg (fun o => ?_) (fun x hx => ?_) ?_ ?_ ?_ ?_ fun _ => rfl
  · exact Or.inl (by simp [kind])
  · have hold : s.HasCell x := by simpa [HasCell] using hx
    rcases hg.content x hold with heq | ⟨old, new, hvar, hnew⟩
    · exact Or.inl ⟨hold, heq⟩
    · right
      rw [cell_assign] at hnew ⊢
      split
      · rw [hvar]
        exact hv.mono hg
      · next hne =>
        rw [if_neg hne] at hnew
        rw [hvar]
        exact Cell.Apt.mono (hvar ▸ h.cells x hold) h hg
  all_goals simp only [object_assign, bindings_assign, Store.type]
  · exact fun _ _ hb => Or.inl hb
  · exact fun _ _ hl => Or.inl hl
  · exact fun _ _ hf => Or.inl hf
  · exact fun _ _ ht => Or.inl ht

/-- A new table may share cells that give nothing away. -/
theorem newTable {x : Table} (hx : ∀ b ∈ x.bindings, s.Discreet b.2) (houter : x.outer = []) :
    (s.newTable x).2.Guarded := by
  have hg := s.newTable_grows x
  refine h.of_new hg (fun o => ?_) (fun c hc => ?_) (fun t b hb => ?_) ?_ ?_ ?_ fun i => ?_
  · exact Or.inl (by simp [kind])
  · exact Or.inl ⟨by simpa [HasCell] using hc, by simp⟩
  · rw [bindings_newTable] at hb
    split at hb
    · next heq =>
      refine Or.inr (((hx b hb).mono h hg).allows ?_ b.1)
      simp [heq]
    · exact Or.inl hb
  · exact fun _ _ hl => Or.inl hl
  · exact fun _ _ hf => Or.inl hf
  · exact fun _ _ ht => Or.inl ht
  · rw [table_newTable]
    split
    · rw [houter, h.outer]
    · rfl

theorem newObject {base : Option ObjectId} {x : Kind} (hbase : ∀ b ∈ base, s.Ordinary b)
    (hx : x.Apt s) : (s.newObject base x).2.Guarded := by
  have hg := s.newObject_grows base x
  refine h.of_new hg (fun o => ?_) (fun c hc => ?_) (fun t b hb => ?_) (fun o l hl => ?_)
    (fun o f hf => ?_) (fun o t ht => ?_) fun _ => rfl
  · rw [kind, object_newObject]
    split
    · exact Or.inr (hx.mono hg)
    · exact Or.inl rfl
  · exact Or.inl ⟨by simpa [HasCell] using hc, by simp⟩
  · rw [bindings_newObject] at hb
    exact Or.inl hb
  · rw [object_newObject] at hl
    split at hl
    · cases base with
      | none => cases hl
      | some b => exact Or.inr ((h.ordinary_levels (hbase b rfl) l hl).mono hg)
    · exact Or.inl hl
  · rw [object_newObject] at hf
    split at hf
    · cases hf
    · exact Or.inl hf
  · rw [Store.type, object_newObject] at ht
    split at ht
    · cases ht
    · exact Or.inl ht

/-- A table takes a binding that it may have. -/
theorem bind (ht : s.Holds t) (hfree : s.local? t name = none) (hc : s.Allows t (name, c)) :
    (s.bind t name c).Guarded := by
  have hg := s.bind_grows c ht hfree
  refine h.of_new hg (fun o => ?_) (fun x hx => ?_) (fun x b hb => ?_) (fun o l hl => ?_)
    (fun o f hf => ?_) (fun o x hx => ?_) (outer_bind_free t name c)
  · exact Or.inl (kind_bind ..)
  · exact Or.inl ⟨by simpa [HasCell] using hx, by simp⟩
  · rw [bindings_bind _ _ _ _ _ ht] at hb
    split at hb
    · next heq =>
      rcases List.mem_cons.mp hb with rfl | hb
      · subst heq
        exact Or.inr (hc.mono h hg)
      · exact Or.inl hb
    · exact Or.inl hb
  · rw [below_bind] at hl
    exact Or.inl hl
  · rw [face_bind] at hf
    exact Or.inl hf
  · rw [Store.type, type_bind] at hx
    exact Or.inl hx

/-- Faces and types may change to what programs may get hold of. -/
theorem of_alike (heq : s.Alike s') (hface : ∀ o f, (s'.object o).face = some f →
      (s.object o).face = some f ∨ f = o ∨ s.Ordinary f)
    (htype : ∀ o t, s'.type o = some t → s.type o = some t ∨ s.Ordinary t) : s'.Guarded := by
  have hg := heq.grows
  refine h.of_new hg (fun o => Or.inl (heq.kind o)) (fun c hc => ?_) (fun t b hb => ?_)
    (fun o l hl => ?_) (fun o f hf => ?_) (fun o t ht => ?_) fun i => by rw [heq.table_eq]
  · refine Or.inl ⟨?_, by rw [heq.cell_eq]⟩
    rw [HasCell, heq.cells] at hc
    exact hc
  · rw [heq.bindings_eq] at hb
    exact Or.inl hb
  · rw [heq.below] at hl
    exact Or.inl hl
  · exact (hface o f hf).imp_right (·.imp_right (·.mono hg))
  · exact (htype o t ht).imp_right (·.mono hg)

theorem setFace (o : ObjectId) : (s.setFace o o).Guarded := by
  refine h.of_alike (s.setFace_alike o o) (fun x f hf => ?_) (fun x t ht => ?_)
  · rw [object_setFace] at hf
    split at hf
    · next heq =>
      cases hf
      exact Or.inr (Or.inl heq.1.symm)
    · exact Or.inl hf
  · rw [Store.type, object_setFace] at ht
    split at ht <;> exact Or.inl ht

theorem setType (o : ObjectId) (hv : s.Ordinary v) : (s.setType o v).Guarded := by
  refine h.of_alike (s.setType_alike o v) (fun x f hf => ?_) (fun x t ht => ?_)
  · rw [object_setType] at hf
    split at hf <;> exact Or.inl hf
  · rw [Store.type, object_setType] at ht
    split at ht
    · cases ht
      exact Or.inr hv
    · exact Or.inl ht

theorem rooted {root type : ObjectId} {kind : Kind} (hroot : s.Ordinary root)
    (htype : s.Ordinary type) (hkind : kind.Apt s) : (s.rooted root type kind).2.Guarded := by
  have hmade : (s.newObject (some root) kind).2.Guarded := by
    refine h.newObject ?_ hkind
    rintro _ ⟨⟩
    exact hroot
  have hgrows := (s.newObject_grows (some root) kind).trans (setFace_alike _ s.fresh
    s.fresh).grows
  exact (hmade.setFace _).setType _ (htype.mono hgrows)

/-- A table that stands on its own takes a constant. -/
theorem addConst {i : Nat} (ht : i < s.tables.size) (hfree : s.local? (.free i) name = none)
    (hv : s.Ordinary v) : (s.addConst (.free i) name v).Guarded := by
  have hdiscreet : (s.newCell (.const v)).2.Discreet ⟨s.cells.size⟩ :=
    (hv.mono (s.newCell_grows _)).discreet (by simp [HasCell]) (s.cell_newCell_self _)
  exact (h.newCell (x := .const v) hv.1).bind ht hfree (hdiscreet.allows (by simp) name)

theorem wearFace (ho : s.Ordinary o) : (s.wearFace o).Guarded := by
  refine h.of_alike (s.wearFace_alike o) (fun x f hf => ?_) (fun x t ht => ?_)
  · rw [object_wearFace] at hf
    split at hf
    · cases hf
      exact Or.inr (Or.inr ho)
    · exact Or.inl hf
  · rw [Store.type, object_wearFace] at ht
    split at ht <;> exact Or.inl ht

end

section Copies

variable (h : s.Guarded)
include h

omit h in
theorem conveys : Conveys Guarded fun s s' => s'.Guarded ∧ s.Grows s' :=
  ⟨fun h => ⟨h, .refl _⟩, fun h h' => ⟨h'.1, h.2.trans h'.2⟩, And.left⟩

/-- The copy gives away no more than what is copied, and the store grows. -/
theorem captureCell (hc : s.Discreet c) :
    ((s.captureCell c).2.Guarded ∧ s.Grows (s.captureCell c).2) ∧
      (s.captureCell c).2.Discreet (s.captureCell c).1 := by
  rw [Store.captureCell]
  split
  · next v hv =>
    refine ⟨⟨h.newCell (hv ▸ h.cells c hc.1), s.newCell_grows _⟩, by simp [HasCell], ?_⟩
    intro f hf
    simp at hf
  · exact ⟨⟨h, .refl s⟩, hc⟩

theorem captureTable (ht : t.isFree = true) :
    ((s.captureTable t).2.Guarded ∧ s.Grows (s.captureTable t).2) ∧
      (s.captureTable t).1.isFree = true := by
  have houter : s.outer t = [] := by
    cases t with
    | free i => exact h.outer i
    | part o p => cases ht
  obtain ⟨⟨hall, hg⟩, hcopies⟩ := conveys.captureBindings (C := Discreet)
    (fun hs hg hc => hc.mono hs hg.2) captureCell h (s.bindings t) fun b hb =>
    h.discreet (fun o => TableId.ne_part ht o _) hb
  rw [Store.captureTable, houter]
  exact ⟨⟨hall.newTable hcopies rfl, hg.trans (newTable_grows _ _)⟩, rfl⟩

/-- A copy of an activation has as many scopes, and the same notes. -/
theorem captureActivation (ha : a.Sturdy s) :
    (s.captureActivation a).2.Guarded ∧ s.Grows (s.captureActivation a).2 ∧
      (s.captureActivation a).1.Sturdy (s.captureActivation a).2 := by
  obtain ⟨⟨hall, hg⟩, hscopes, hhome⟩ := conveys.captureActivation
    (T := fun _ t => t.isFree = true) (fun _ _ => id) captureTable h ha.scopes ha.home
  obtain ⟨home, heq⟩ := s.captureActivation_eq a
  have hinner : (s.captureActivation a).1.scopes ≠ [] := by
    obtain ⟨t, rest, hcons⟩ := List.exists_cons_of_ne_nil ha.inner
    rw [heq, hcons]
    exact List.cons_ne_nil _ _
  refine ⟨hall, hg, ?_, hinner, hscopes, hhome, ?_⟩
  · rw [heq]
    exact ha.owner.mono hg
  · rw [heq]
    exact ha.notes

end Copies

end Store.Guarded

end ObjectLang
