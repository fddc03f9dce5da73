import ObjectLang.Proofs.Aliasing
import ObjectLang.Proofs.ErrorClasses
import ObjectLang.Proofs.Arity
import ObjectLang.Proofs.LevelFields

/-!
Members are read and written in the same place.
Where members are read by the machine's own operator, the name of a member leads reads and writes
from one activation to the same cell, or both nowhere. A variable that was written is read as
written, and only a cell that is no variable and has no setter refuses to be written.
-/
namespace ObjectLang

open Machine Routine

namespace Store

variable {R : TableId} {root o l : ObjectId} {s : Store} {name : String} {c : CellId}

/-- The cell that the name of a member leads code of `accessor` to. -/
def holder? (s : Store) (accessor target : ObjectId) (name : String) : Option CellId :=
  s.lookupIn (s.memberScope accessor target) name

/-- At most the values of variables tell the stores apart. -/
structure SameLayout (s s' : Store) : Prop extends s.Grows s' where
  objects : s'.objects = s.objects
  tables : s'.tables = s.tables

theorem SameLayout.refl (s : Store) : s.SameLayout s := ⟨.refl s, rfl, rfl⟩

theorem SameLayout.assign (s : Store) (c : CellId) (v : ObjectId) : s.SameLayout (s.assign c v) :=
  ⟨s.assign_grows c v, rfl, rfl⟩

/-- Tables and kinds are found in the layout, so that members are too. -/
theorem SameLayout.reads {s' : Store} (h : s.SameLayout s') :
    s'.holder? = s.holder? ∧ s'.lookup = s.lookup ∧ s'.kind = s.kind := by
  obtain ⟨objects, cells, tables⟩ := s
  obtain ⟨objects', cells', tables'⟩ := s'
  cases h.objects
  cases h.tables
  exact ⟨rfl, rfl, rfl⟩

/-- From outside, the members of the root are found in the root alone: it has no fields. -/
theorem Proper.holder?_root (h : s.Proper R root) (hfaced : s.Faced root)
    (hfields : s.bindings (.part root .fields) = []) (accessor : ObjectId) (name : String) :
    s.holder? accessor root name = s.local? (.part root .members) name := by
  have hkind : ¬ (s.kind root).Definition := fun hk => by
    have hbelow := h.defined root hk
    rw [h.bottom.2] at hbelow
    cases hbelow
  have hmembers : s.lookup (.part root .members) name = s.local? (.part root .members) name := by
    rw [lookup, show s.outer (.part root .members) = [] by simp [Store.outer, h.bottom.2],
      List.findSome?_singleton]
  have hempty : s.lookup (.part root .fields) name = none := by
    rw [lookup, Store.outer, List.findSome?_singleton, local?, hfields]
    rfl
  rw [holder?, memberScope_of_not_definition hkind, lookupIn, List.findSome?_cons, hmembers]
  cases s.local? (.part root .members) name with
  | some c => rfl
  | none =>
    dsimp only
    split
    · next hown =>
      -- What wears the face of the root lies on the root, so that it is the root.
      obtain rfl : accessor = root := by
        refine hown.elim id fun hface => ?_
        have hworn := hfaced.worn accessor
        rw [hface, levels, h.bottom.2] at hworn
        exact List.mem_singleton.mp hworn
      rw [List.findSome?_singleton, hempty]
    · rfl

end Store

namespace Machine

variable {m : Machine} {a : Activation} {target : ObjectId}

/-- The operator that reads the members of the root has none of its own, so that it may as well look
at those of the root. -/
theorem Reachable.holder?_hook (h : Reachable m) (ha : a.Sturdy m.store) {i : CellId} {l : ObjectId}
    (hi : m.store.lookup (.part target .operators) "." = some i)
    (hcell : m.store.cell i = .const target) (hmethod : m.store.MethodOf l .memberRead target)
    (name : String) : m.store.holder? a.owner l name = m.store.holder? a.owner target name := by
  have hguarded := h.guarded.store
  have hproper := h.proper.store
  have hkind : m.store.kind target = .method l .memberRead := hmethod
  have hlooks : m.store.MethodBy Code.looks target := ⟨l, .memberRead, hkind, rfl⟩
  have hbelow : (m.store.object target).below = [m.roots.root] :=
    hproper.defined target (by rw [hkind]; trivial)
  obtain ⟨c, f, hc, hf, hroot, hmembers⟩ := h.hooked.memberRead
  -- The operator is bound on the root, since no method binds itself to that name.
  obtain ⟨rfl, rfl⟩ : target = f ∧ l = m.roots.root := by
    obtain ⟨t, ht, hlocal⟩ := List.exists_of_findSome?_eq_some hi
    rw [Store.outer, hbelow] at ht
    · rcases List.mem_cons.mp ht with rfl | ht
      · obtain ⟨o, heq, ⟨-, hne⟩ | ⟨hname, -⟩⟩ :=
          (hguarded.bindings _ _ (Store.Binds.of_local? hlocal)).kept target hcell hlooks.hides
        · cases heq
          exact absurd rfl hne
        · simp at hname
      · obtain rfl := List.mem_singleton.mp ht
        cases hc.symm.trans hlocal
        cases hcell.symm.trans hf
        cases hkind.symm.trans hroot
        exact ⟨rfl, rfl⟩
    · simp
  have howner : a.owner ≠ target := fun heq => ha.owner.unread (heq ▸ hlooks)
  have hface : m.store.face a.owner ≠ target := fun heq =>
    (hguarded.ordinary_face ha.owner).unread (heq ▸ hlooks)
  rw [hproper.holder?_root h.orderly.faced h.hooked.fields, Store.holder?, Store.memberScope,
    if_neg howner, if_neg (fun hboth => hface hboth.1), Store.publicScope, hkind]
  have hown : m.store.local? (.part target .members) name = none := by
    rw [Store.local?, hmembers]
    rfl
  rw [Store.lookupIn, List.findSome?_singleton, Store.lookup, Store.outer, hbelow]
  · rw [List.findSome?_cons, hown, List.map_singleton, List.findSome?_singleton]
  · simp

end Machine

/-- Whether a cell can be written: it is a variable, or has a setter. -/
def Cell.Writable : Cell → Prop
  | .var _ | .computed _ (some _) => True
  | _ => False

theorem Code.exists_of_isBlock {code : Code} (h : code.isBlock = true) :
    ∃ b names, code.body = .block b ∧ code.params = .fixed names := by
  unfold isBlock at h
  split at h
  · next b names hb hnames => exact ⟨b, names, hb, hnames⟩
  · cases h

namespace Eval

variable {W : Stock} {m₀ m m' : Machine} {a : Activation} {target : ObjectId} {d : Nat}

/-- Whatever goes wrong in a block leaves a statement. -/
theorem runBody_fatal (hm₀ : m₀.Sound W) (hbacked : Backed m₀ m) (hstack : m.stack ≠ []) {b : Block}
    {e : Error} (h : runBody (.ofDepth d) b m = .failed e m') : e.isFatal = true := by
  obtain ⟨m₁, hresumes, hretains, hbuiltins⟩ := runBody_enters (k := .ofDepth d) hstack b
  have hbacked₁ : Backed m₀ m₁ := ⟨hbacked.store.trans (hretains.mono hbacked.store.sizes.objects),
    hbuiltins.trans hbacked.builtins⟩
  rw [hresumes.run] at h
  cases d with
  | zero => cases h
  | succ d =>
    obtain ⟨v, hnothing⟩ := hbacked₁.nothing hm₀ (.ofDepth d)
    simp only [ensuring, ending, map_run, Inner.ofDepth, execute, bind_run_done hnothing.run] at h
    cases hrun : runStatements (.ofDepth d) v b m₁ with
    | done r m₃ => simp [hrun] at h
    | failed e₁ m₃ =>
      simp only [hrun, Outcome.failed.injEq] at h
      exact h.1 ▸ runStatements_fatal hrun
    | exhausted => simp [hrun] at h

/-- A setter is code that is written in the language, so that its errors are its own. -/
theorem invoke_setter_ne (hm : m.Poised) {f : ObjectId} (hf : m.store.MethodBy Code.isBlock f)
    (receiver : Option ObjectId) (args : List ObjectId) (d : Nat) :
    invoke (.ofDepth d) f receiver args m ≠ .failed (.fault .constant) m' := by
  obtain ⟨owner, code, hkind, hblock⟩ := hf
  obtain ⟨b, names, hbody, hparams⟩ := Code.exists_of_isBlock hblock
  have hcode : m.store.code? f = some code := by rw [Store.code?, hkind]
  intro hfails
  obtain ⟨_, _, _, hne⟩ | ⟨_, hne⟩ | ⟨m₁, m₂, hbacked, hstack, hrun⟩ :=
    hm.invoke_failed (.refl m) hcode hparams hfails
  · cases hne
  · cases hne
  · rw [hbody] at hrun
    cases runBody_fatal hm.sound hbacked hstack hrun

/-- A cell refuses to be written if and only if it is neither a variable nor has a setter. -/
theorem writeCell_refused (h : Reachable m) {c : CellId} (hc : m.store.HasCell c) (d : Nat)
    (receiver : Option ObjectId) (v : ObjectId) :
    (∃ m', writeCell (.ofDepth d) c receiver v m = .failed (.fault .constant) m') ↔
      ¬ (m.store.cell c).Writable := by
  have hapt := h.guarded.store.cells c hc
  cases hcell : m.store.cell c with
  | var old => simp [writeCell, bind_run, see, quiet, hcell, change, Cell.Writable]
  | const w => simp [writeCell, bind_run, see, quiet, hcell, fail, Cell.Writable]
  | view shown => simp [writeCell, bind_run, see, quiet, hcell, fail, Cell.Writable]
  | computed getter setter =>
    cases setter with
    | none => simp [writeCell, bind_run, see, quiet, hcell, fail, Cell.Writable]
    | some f =>
      rw [hcell] at hapt
      refine iff_of_false ?_ fun hnot => hnot trivial
      rintro ⟨m', hfails⟩
      have hsee : see (·.cell c) m = .done (.computed getter (some f)) m := by
        rw [← hcell]
        rfl
      rw [writeCell, bind_run_done hsee] at hfails
      change ((Inner.ofDepth d).invoke f receiver [v] >>= fun _ => Pure.pure ()) m = _ at hfails
      rw [bind_run] at hfails
      cases d with
      | zero => cases hfails
      | succ d =>
        cases hrun : invoke (.ofDepth d) f receiver [v] m with
        | done w m₁ => simp [Inner.ofDepth, hrun, pure_run] at hfails
        | failed e m₁ =>
          simp only [Inner.ofDepth, hrun, Outcome.failed.injEq] at hfails
          rw [hfails.1] at hrun
          exact invoke_setter_ne h.poised (hapt.2 f rfl).2 receiver [v] d hrun
        | exhausted => simp [Inner.ofDepth, hrun] at hfails

end Eval

namespace Machine

variable {m : Machine} {a : Activation} {target : ObjectId}

/-- Which object a member of the target is looked up in: the target, unless it is the operator that
looks members up itself. -/
def Stands (m : Machine) (target this : ObjectId) : Prop :=
  this = target ∨ m.store.kind target = .method this .memberRead

/-- Where the name of a member leads, a read goes by the same cell as a write, also when a variable
has been written since. -/
theorem Reachable.getMember_holder (h : Reachable m) (hstack : m.stack.head? = some a)
    (htarget : m.store.HasObject target) (hplain : m.store.Transparent target) {s : Store}
    (hsame : m.store.SameLayout s) (hs : s.Sound .any) (d : Nat) (name : String) : ∃ b m₁ this,
      ({ m with store := s } : Machine).Within b m₁ ∧ m.Stands target this ∧
      Eval.getMember (.ofDepth (d + 1)) target name { m with store := s } =
        match m.store.holder? a.owner target name with
        | some c => ((Eval.readCell (.ofDepth d) c (some this)).ensuring leave) m₁
        | none => .failed (.fault (.unknownName name)) m₁.leave := by
  obtain ⟨i, f, l, hi, hf, hmethod⟩ := hplain
  obtain ⟨c, v, hc, hv, hsimple⟩ := h.simple (show "String" ∈ Builtin.valueClasses by decide)
  obtain ⟨hholder, hlookup, hkind⟩ := hsame.reads
  have hgrows := hsame.toGrows
  have hcell : ∀ {t name c}, m.store.lookup t name = some c → m.store.HasCell c :=
    Store.hasCell_of_lookup h.sound.store.toWellformed
  have hliterate : ({ m with store := s } : Machine).Literate .any :=
    ⟨h.sound.withStore hs hgrows, c, v, hgrows.bound _ _ _ hc,
      hgrows.const (hcell (Store.lookup_of_local? hc)) hv, hsimple.mono hgrows⟩
  obtain ⟨b, m₁, hwithin, hget⟩ := Eval.getMember_hooked hliterate hstack
    (htarget.mono hgrows.sizes) (hlookup ▸ hi) (hgrows.const (hcell hi) hf)
    (hmethod.mono hgrows) rfl d name
  change _ = match s.holder? a.owner _ name with | some c => _ | none => _ at hget
  rw [hholder] at hget
  by_cases hself : f = target
  · subst hself
    rw [if_pos rfl] at hget
    refine ⟨b, m₁, l, hwithin, Or.inr hmethod, ?_⟩
    rw [← h.holder?_hook (h.guarded.stack a (List.mem_of_head? hstack)) hi hf hmethod name]
    exact hget
  · rw [if_neg hself] at hget
    exact ⟨b, m₁, target, hwithin, Or.inl rfl, hget⟩

/-- In every state that a run comes to, for every target whose members are read by the machine's own
operator and every name: a read and a write by the running activation both find the name unknown, or
both come to one cell. Where that is a variable, it is written, and then read as written. The write
is refused if and only if the cell is no variable and has no setter. -/
theorem member_access_agrees (h : Reachable m) (hstack : m.stack.head? = some a)
    (htarget : m.store.HasObject target) (hplain : m.store.Transparent target) (name : String)
    (d : Nat) :
    match m.store.holder? a.owner target name with
    | none =>
      (∃ m', Eval.getMember (.ofDepth (d + 1)) target name m =
        .failed (.fault (.unknownName name)) m' ∧ m.Retains m.store.objects.size m') ∧
      ∀ v, Eval.setMember (.ofDepth d) target name v m = .failed (.fault (.unknownName name)) m
    | some c =>
      (∃ b m₁ this, m.Within b m₁ ∧ m.Stands target this ∧
        Eval.getMember (.ofDepth (d + 1)) target name m =
          ((Eval.readCell (.ofDepth d) c (some this)).ensuring leave) m₁) ∧
      (∀ v, Eval.setMember (.ofDepth d) target name v m =
        Eval.writeCell (.ofDepth d) c (some target) v m) ∧
      (∀ old v, m.store.cell c = .var old → m.store.HasObject v → ∃ m₁ m₂,
        Eval.setMember (.ofDepth d) target name v m = .done () m₁ ∧ m₁.stack = m.stack ∧
        Eval.getMember (.ofDepth (d + 1)) target name m₁ = .done v m₂) ∧
      ∀ v, (∃ m', Eval.setMember (.ofDepth d) target name v m = .failed (.fault .constant) m') ↔
        ¬ (m.store.cell c).Writable := by
  have hset : ∀ v, Eval.setMember (.ofDepth d) target name v m =
      match m.store.holder? a.owner target name with
      | some c => Eval.writeCell (.ofDepth d) c (some target) v m
      | none => .failed (.fault (.unknownName name)) m :=
    Eval.setMember_run (by rw [← List.head?_eq_getElem?, hstack])
  obtain ⟨b, m₁, this, hwithin, hthis, hget⟩ :=
    h.getMember_holder hstack htarget hplain (.refl _) h.sound.store d name
  cases hholder : m.store.holder? a.owner target name with
  | none =>
    rw [hholder] at hget
    simp only [hholder] at hset
    exact ⟨⟨_, hget, hwithin.leave (.refl _ _)⟩, hset⟩
  | some c =>
    rw [hholder] at hget
    simp only [hholder] at hset
    have hc := Store.hasCell_of_lookupIn h.sound.store.toWellformed hholder
    refine ⟨⟨b, m₁, this, hwithin, hthis, hget⟩, hset, fun old v hold hv => ?_, fun v => ?_⟩
    · obtain ⟨b', m₂, this', hwithin', -, hget'⟩ := h.getMember_holder hstack htarget hplain
        (.assign _ c v) (h.sound.store.assign hv) d name
      rw [hholder] at hget'
      have hcell : m₂.store.cell c = .var v := by
        rw [hwithin'.store.cells c (hc.mono (m.store.assign_grows c v).sizes)]
        exact Store.cell_assign_self hold v
      refine ⟨{ m with store := m.store.assign c v }, m₂.leave, ?_, rfl, hget'.trans ?_⟩
      · rw [hset]
        simp only [Eval.writeCell, bind_run, see, quiet, hold, change]
      · simp only [ensuring, ending, Eval.readCell, bind_run, see, quiet, hcell, pure_run]
    · rw [hset]
      exact Eval.writeCell_refused h hc d _ v

section Witness

def keepingSource : Source := .ofText "class A \x7b property p \x7d; val a = A()"

/-- The running activation finds a variable as the member of the instance. -/
theorem keeping_run : ∃ m, (Eval.runSource (.ofDepth 24) keepingSource initial).machine? = some m ∧
    ∃ x, m.lookup "a" = some x ∧ ∃ o, m.store.cell x = .const o ∧ m.store.HasObject o ∧
    m.store.Transparent o ∧ ∃ a, m.stack.head? = some a ∧
    ∃ c, m.store.holder? a.owner o "p" = some c ∧
    ∃ old, m.store.cell c = .var old := by decide +kernel

/-- The property is written from outside, and read as written. -/
theorem member_access_agrees_keeping : ∃ m a o c m₁ m₂, Reachable m ∧ m.stack.head? = some a ∧
    m.store.holder? a.owner o "p" = some c ∧
    Eval.setMember (.ofDepth 2) o "p" o m = .done () m₁ ∧
    Eval.getMember (.ofDepth 3) o "p" m₁ = .done o m₂ := by
  obtain ⟨m, hend, -, -, o, -, hhas, hplain, a, ha, c, hc, old, hold⟩ := keeping_run
  have hreachable : Reachable m := .between (.next .start 24 keepingSource hend)
  have hagrees := member_access_agrees hreachable ha hhas hplain "p" 2
  rw [hc] at hagrees
  obtain ⟨m₁, m₂, hset, -, hget⟩ := hagrees.2.2.1 old o hold hhas
  exact ⟨m, a, o, c, m₁, m₂, hreachable, ha, hc, hset, hget⟩

end Witness

end Machine

end ObjectLang
