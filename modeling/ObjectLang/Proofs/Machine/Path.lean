import ObjectLang.Machine.Moment
import ObjectLang.Proofs.Store.Copy
import ObjectLang.Proofs.Store.Level

/-!
Sound machines, and what they can do, one move after the other.
The store of a sound machine is sound, everything on its call stack and all its own tables and roots
fit into the store, and its builtins hold the value `nothing` and the class that has no superclass.
A silent move changes the machine in one of a few ways, each with what its callers grant. At a
moment the machine does the deed of that moment. Whatever holds of every move and of every moment
holds of a whole run, since every run of the evaluator is a path.
-/
namespace ObjectLang

namespace Store

variable {s : Store} {name : String} {o : ObjectId}

theorem refusal?_operator {op : String} (hop : NameRule.operator.accepts op = true)
    (hfree : s.local? (.part o .operators) op = none) :
    s.refusal? (.part o .operators) op = none := by
  simp [refusal?, rule, hop, hfree]

theorem refusal?_member (hname : NameRule.symbol.accepts name = true)
    (hfree : s.local? (.part o .members) name = none) :
    s.refusal? (.part o .members) name = none := by
  simp [refusal?, rule, hname, hfree]

/-- A table refuses a name for reasons of the machine only. -/
theorem refusal?_own {t : TableId} {f : Fault} (h : s.refusal? t name = some f) :
    ∀ g text, f ≠ .raised g text := by
  rcases fault_of_refusal? h with ⟨-, rfl⟩ | rfl <;> simp

end Store

namespace Machine

structure Sound (W : Stock) (m : Machine) : Prop where
  store : m.store.Sound W
  stack : ∀ a ∈ m.stack, a.Fits m.store
  roots : m.roots.Fits m.store
  builtins : m.store.HasTable m.builtins
  modules : m.store.HasTable m.modules
  nothing : ∃ c v, m.store.local? m.builtins "nothing" = some c ∧ m.store.cell c = .const v
  object : ∃ c o b, m.store.local? m.builtins "Object" = some c ∧ m.store.cell c = .const o ∧
    m.store.kind o = .ofClass b ∧ b.base = none

variable {W : Stock} {n : Nat} {m m' m'' : Machine} {stack : List Activation} {s : Store}

namespace Sound

theorem withStore (h : m.Sound W) (hs : s.Sound W) (hg : m.store.Grows s) :
    { m with store := s }.Sound W where
  store := hs
  stack a ha := (h.stack a ha).mono hg.sizes
  roots := h.roots.mono hg.sizes
  builtins := h.builtins.mono hg.sizes
  modules := h.modules.mono hg.sizes
  nothing := by
    obtain ⟨c, v, hc, hv⟩ := h.nothing
    exact ⟨c, v, hg.bound _ _ _ hc, hg.const (h.store.hasCell_of_local? hc) hv⟩
  object := by
    obtain ⟨c, o, b, hc, ho, hkind, hbase⟩ := h.object
    exact ⟨c, o, b, hg.bound _ _ _ hc, hg.const (h.store.hasCell_of_local? hc) ho,
      hg.kind_of_ne hkind (by simp), hbase⟩

/-- Only the call stack, the output and the log differ. -/
theorem withStack (h : m.Sound W) (hstack : ∀ a ∈ stack, a.Fits m.store) (sink : Sink)
    (log : List Event) :
    { m with stack := stack, sink := sink, log := log }.Sound W :=
  ⟨h.store, hstack, h.roots, h.builtins, h.modules, h.nothing, h.object⟩

theorem head (h : m.Sound W) {a : Activation} (ha : m.stack.head? = some a) : a.Fits m.store :=
  h.stack a (List.mem_of_mem_head? ha)

end Sound

/-- What every part of a run keeps. Objects older than `n` stay as they are. -/
structure Onward (W : Stock) (n : Nat) (m m' : Machine) : Prop where
  sound : m'.Sound W
  grows : m.store.Grows m'.store
  intact : ∀ o, o.index < n → m'.store.object o = m.store.object o
  builtins : m'.builtins = m.builtins
  modules : m'.modules = m.modules
  roots : m'.roots = m.roots

namespace Onward

theorem refl (h : m.Sound W) : Onward W n m m := ⟨h, .refl _, fun _ _ => rfl, rfl, rfl, rfl⟩

theorem trans (h : Onward W n m m') (h' : Onward W n m' m'') : Onward W n m m'' where
  sound := h'.sound
  grows := h.grows.trans h'.grows
  intact o ho := (h'.intact o ho).trans (h.intact o ho)
  builtins := h'.builtins.trans h.builtins
  modules := h'.modules.trans h.modules
  roots := h'.roots.trans h.roots

theorem withStore (hm : m.Sound W) (hs : s.Sound W) (hg : m.store.Grows s)
    (hintact : ∀ o, o.index < n → s.object o = m.store.object o) :
    Onward W n m { m with store := s } :=
  ⟨hm.withStore hs hg, hg, hintact, rfl, rfl, rfl⟩

theorem withStack (hm : m.Sound W) (hstack : ∀ a ∈ stack, a.Fits m.store) (sink : Sink)
    (log : List Event) :
    Onward W n m { m with stack := stack, sink := sink, log := log } :=
  ⟨hm.withStack hstack sink log, .refl _, fun _ _ => rfl, rfl, rfl, rfl⟩

end Onward

end Machine

/-- The machine with one more table. -/
abbrev Machine.tabled (m : Machine) : Machine := { m with store := (m.store.newTable .empty).2 }

/-- A silent move of the machine. It changes no object older than `n`. -/
inductive Move (W : Stock) (n : Nat) (m : Machine) : Machine → Prop where
  | note (e : Event) : Move W n m (m.note e)
  | print {lines : List String} (text : String) (h : m.sink = .collecting lines) :
      Move W n m { m with sink := .collecting ((text ++ "\n") :: lines) }
  | cell {c : Cell} (hfits : c.Fits m.store) (hview : ∀ x, c = .view x → ¬ m.store.IsField x) :
      Move W n m { m with store := (m.store.newCell c).2 }
  | table : Move W n m m.tabled
  | object {base : Option ObjectId} {kind : Kind} (hbase : ∀ b ∈ base, m.store.HasObject b)
      (hkind : kind.Fits W m.store) (hclass : Store.NoClass kind)
      (hlies : ∀ b ∈ base, m.store.Supports b) :
      Move W n m { m with store := (m.store.newObject base kind).2 }
  | rooted {type : ObjectId} {kind : Kind} (htype : m.store.HasObject type)
      (hkind : kind.Fits W m.store) (hclass : Store.NoClass kind) :
      Move W n m { m with store := (m.store.rooted m.roots.root type kind).2 }
  | newClass {b : Blueprint} (hb : b.Fits W m.store)
      (hbase : ∀ base ∈ b.base, ∃ b', m.store.kind base = .ofClass b') (hsome : b.base ≠ none) :
      Move W n m { m with store := (m.store.addClass m.roots b).2 }
  | bind {t : TableId} {name : String} {c : CellId} (ht : m.store.Holds t)
      (hfield : ∀ o, t ≠ .part o .fields) (hnew : ∀ o p, t = .part o p → n ≤ o.index)
      (hfree : m.store.refusal? t name = none) (hc : m.store.Shareable c)
      (htakes : m.store.Takes t name) (hstill : ∀ i, t = .free i → (m.store.cell c).Still) :
      Move W n m { m with store := m.store.bind t name c }
  | settle {o type : ObjectId} {b : Blueprint} (ho : m.store.HasObject o)
      (htype : m.store.kind type = .ofClass b)
      (hlevels : ∀ l ∈ m.store.levels o, n ≤ l.index ∧ Store.NoClass (m.store.kind l))
      (hmaking : m.store.Unsettled m.roots.root o) (hlevel : m.store.Level o b) :
      Move W n m { m with store := m.store.settle o type }
  | push {a : Activation} (ha : a.Fits m.store) : Move W n m (m.push a)
  | pop : Move W n m m.pop
  | openScope {t : TableId} (ht : m.store.HasTable t) :
      Move W n m (m.modifyTop (·.pushScope t))
  | closeScope : Move W n m (m.modifyTop Activation.popScope)
  | record {a : Activation} {parts : ModuleParts} (names : List String)
      (ha : m.stack.head? = some a) (howner : m.store.kind a.owner = .ofModule parts) :
      Move W n m (m.modifyTop fun a => names.foldl (·.record Activation.exportKey ·) a)

namespace Activation

variable {s : Store} {a : Activation}

theorem Fits.pushScope (h : a.Fits s) {t : TableId} (ht : s.HasTable t) :
    (a.pushScope t).Fits s := by
  refine ⟨h.owner, ?_, h.home⟩
  intro t' ht'
  rcases List.mem_cons.mp ht' with rfl | ht'
  · exact ht
  · exact h.scopes t' ht'

theorem Fits.popScope (h : a.Fits s) : a.popScope.Fits s :=
  ⟨h.owner, fun t ht => h.scopes t (List.mem_of_mem_tail ht), h.home⟩

/-- Recording names changes nothing but the notes, and adds to these. -/
theorem foldl_record (names : List String) (a : Activation) :
    ∃ extra, names.foldl (·.record exportKey ·) a = { a with notes := a.notes ++ extra } ∧
      ∀ x ∈ extra, x.1 = exportKey := by
  induction names generalizing a with
  | nil => exact ⟨[], by simp, by simp⟩
  | cons name rest ih =>
    obtain ⟨extra, heq, hkeys⟩ := ih (a.record exportKey name)
    rw [List.foldl_cons, heq]
    by_cases hold : (exportKey, name) ∈ a.notes
    · rw [record, if_pos hold]
      exact ⟨extra, rfl, hkeys⟩
    · rw [record, if_neg hold]
      refine ⟨(exportKey, name) :: extra, by simp, ?_⟩
      intro x hx
      rcases List.mem_cons.mp hx with rfl | hx
      · rfl
      · exact hkeys x hx

/-- What is recorded in the end: the names, and what was recorded before. -/
theorem mem_foldl_record (names : List String) (a : Activation) (n : String) :
    (exportKey, n) ∈ (names.foldl (·.record exportKey ·) a).notes ↔
      (exportKey, n) ∈ a.notes ∨ n ∈ names := by
  induction names generalizing a with
  | nil => simp
  | cons name rest ih =>
    rw [List.foldl_cons, ih, List.mem_cons, record]
    by_cases hold : (exportKey, name) ∈ a.notes
    · rw [if_pos hold]
      constructor
      · exact Or.imp_right Or.inr
      · rintro (hn | rfl | hn)
        · exact Or.inl hn
        · exact Or.inl hold
        · exact Or.inr hn
    · rw [if_neg hold]
      simp [or_assoc]

end Activation

namespace Machine

variable {W : Stock} {n : Nat} {m : Machine} {f : Activation → Activation}

theorem modifyTop_eq {a : Activation} {rest : List Activation} (h : m.stack = a :: rest) :
    m.modifyTop f = { m with stack := f a :: rest } := by
  rw [modifyTop, h]

theorem Onward.modifyTop (hm : m.Sound W) (hf : ∀ a, a.Fits m.store → (f a).Fits m.store) :
    Onward W n m (m.modifyTop f) := by
  cases hstack : m.stack with
  | nil =>
    rw [Machine.modifyTop, hstack]
    exact .refl hm
  | cons a rest =>
    rw [modifyTop_eq hstack]
    refine .withStack hm ?_ m.sink m.log
    intro x hx
    rcases List.mem_cons.mp hx with rfl | hx
    · exact hf a (hm.stack a (by simp [hstack]))
    · exact hm.stack x (by simp [hstack, hx])

theorem Onward.pop (hm : m.Sound W) : Onward W n m m.pop := by
  cases hstack : m.stack with
  | nil =>
    rw [Machine.pop, hstack]
    exact .refl hm
  | cons a rest =>
    rw [Machine.pop, hstack]
    exact .withStack hm (fun x hx => hm.stack x (by simp [hstack, hx])) m.sink _

/-- The machine is sound and knows all objects older than `n`. -/
structure Ready (W : Stock) (n : Nat) (m : Machine) : Prop where
  sound : m.Sound W
  bound : n ≤ m.store.objects.size

theorem Sound.ready (h : m.Sound W) : Ready W 0 m := ⟨h, Nat.zero_le _⟩

theorem Onward.ready {m' : Machine} (h : Onward W n m m') (hm : Ready W n m) : Ready W n m' :=
  ⟨h.sound, Nat.le_trans hm.bound h.grows.sizes.objects⟩

end Machine

open Machine in
theorem Move.onward {W : Stock} {n : Nat} {m m' : Machine} (h : Move W n m m')
    (hready : Ready W n m) : Onward W n m m' := by
  obtain ⟨hm, hn⟩ := hready
  have hhas : ∀ o : ObjectId, o.index < n → m.store.HasObject o := fun o ho =>
    Nat.lt_of_lt_of_le ho hn
  cases h with
  | note e => exact .withStack hm hm.stack m.sink _
  | print text _ => exact .withStack hm hm.stack _ m.log
  | cell hfits hview =>
    exact .withStore hm (hm.store.newCell hfits hview) (m.store.newCell_grows _) fun _ _ => rfl
  | table =>
    exact .withStore hm (hm.store.newTable (Table.fits_empty _) nofun nofun)
      (m.store.newTable_grows _) fun _ _ => rfl
  | @object base kind hbase hkind hclass =>
    refine .withStore hm (hm.store.newObject hbase hkind hclass) (m.store.newObject_grows _ _) ?_
    intro o ho
    exact m.store.object_newObject_of_has base kind (hhas o ho)
  | rooted htype hkind hclass =>
    refine .withStore hm (hm.store.rooted hm.roots.root htype hkind hclass)
      (m.store.rooted_grows _ _ _) ?_
    intro o ho
    exact m.store.object_rooted_of_has _ _ _ (hhas o ho)
  | @newClass b hb hbase hsome =>
    refine .withStore hm (hm.store.addClass hm.roots hb hbase hsome)
      (m.store.addClass_grows _ _) ?_
    intro o ho
    exact m.store.object_addClass_of_has _ b (hhas o ho)
  | @bind t name c ht hfield hnew hfree hc _ hstill =>
    have hfree' := Store.free_of_refusal? hfree
    refine .withStore hm (hm.store.bind_shared ht hfield hfree' hc.1 hc.2 hstill)
      (m.store.bind_grows _ ht hfree') ?_
    intro o ho
    cases t with
    | free i => rfl
    | part o' p =>
      apply Store.object_modifyObject_of_ne
      rintro rfl
      exact Nat.lt_irrefl _ (Nat.lt_of_lt_of_le ho (hnew o p rfl))
  | @settle o type b ho htype hlevels =>
    have htype : m.store.HasObject type := Store.has_of_kind (by simp [htype])
    refine .withStore hm (hm.store.settle ho htype fun l hl => (hlevels l hl).2)
      ((m.store.wearFace_alike o).grows.trans (Store.setType_alike _ o type).grows) ?_
    intro x hx
    have hnot : x ∉ m.store.levels o := fun hmem =>
      Nat.lt_irrefl _ (Nat.lt_of_lt_of_le hx (hlevels x hmem).1)
    have hxo : x ≠ o := fun heq => hnot (heq ▸ List.mem_cons_self ..)
    rw [Store.settle, Store.object_setType, if_neg (fun h => hxo h.1), Store.object_wearFace,
      if_neg (fun h => hnot h.1)]
  | @push a ha =>
    refine .withStack hm ?_ m.sink _
    intro x hx
    rcases List.mem_cons.mp hx with rfl | hx
    · exact ha
    · exact hm.stack x hx
  | pop => exact .pop hm
  | openScope ht => exact .modifyTop hm fun a ha => ha.pushScope ht
  | closeScope => exact .modifyTop hm fun a ha => ha.popScope
  | record names _ _ =>
    refine .modifyTop hm fun a ha => ?_
    obtain ⟨extra, heq, -⟩ := Activation.foldl_record names a
    rw [heq]
    exact ⟨ha.owner, ha.scopes, ha.home⟩

/-- The route leads to the cell. A member is seen on behalf of the activation at a depth. -/
def Route.Leads (m : Machine) (depth : Nat) (c : CellId) : Route → Prop
  | .name x => m.lookup x = some c
  | .table t x => m.store.HasTable t ∧ m.store.lookup t x = some c
  | .operator target op => m.store.lookup (.part target .operators) op = some c
  | .member accessor target x =>
    (∃ a, m.stack[depth]? = some a ∧ a.owner = accessor) ∧
      m.store.lookupIn (m.store.memberScope accessor target) x = some c
  | .view v => m.store.cell v = .view c

variable {p : Moment}

namespace Moment

def after (p : Moment) : Machine :=
  match p.deed with
  | .writes _ c v => { p.machine with store := p.machine.store.assign c v }
  | .captures a => { p.machine with store := (p.machine.store.captureActivation a).2 }
  | .fills o name c =>
    match p.machine.store.refusal? (.part o .fields) name with
    | none => { p.machine with store := p.machine.store.bind (.part o .fields) name c }
    | some _ => p.machine
  | _ => p.machine

/-- What is granted when a deed is done: code is known, a route leads to the cell that is read or
written, an instance holds what it may hold, and a field belongs to an object in the making that is
not older than `n` and takes an unused cell that keeps a value. -/
def Honest (W : Stock) (n : Nat) (p : Moment) : Prop :=
  match p.deed with
  | .evaluates e => W.expr e
  | .executes s => W.statement s
  | .leaves s _ => W.statement s
  | .reads via c => via.Leads p.machine 1 c
  | .writes via c v => via.Leads p.machine 0 c ∧ p.machine.store.HasObject v
  | .captures a => p.machine.stack.head? = some a
  | .instantiates _ kind => p.machine.store.Payload W kind
  | .initialises o _ => n ≤ o.index ∧ p.machine.store.HasObject o
  | .fills o _ c => n ≤ o.index ∧ p.machine.store.HasObject o ∧ p.machine.store.HasCell c ∧
      p.machine.store.Unused c ∧ p.machine.store.type o = none ∧ (p.machine.store.cell c).Stores
  | .identifies _ | .breaks .. => True

open Machine in
theorem onward {W : Stock} {n : Nat} (h : p.Honest W n) (hm : p.machine.Sound W) :
    Onward W n p.machine p.after := by
  obtain ⟨deed, m⟩ := p
  cases deed with
  | writes via c v =>
    exact .withStore hm (hm.store.assign h.2) (m.store.assign_grows c v) fun _ _ => rfl
  | captures a =>
    obtain ⟨hadds, -⟩ := Store.captureActivation_adds hm.store (hm.head h)
    exact .withStore hm hadds.sound hadds.grows fun o _ => congrFun hadds.object_eq o
  | fills o name c =>
    obtain ⟨hn, ho, hc, hunused, -⟩ := h
    simp only [after]
    split
    · next hrefusal =>
      have hfree := Store.free_of_refusal? hrefusal
      refine .withStore hm (hm.store.bind_field ho hfree hc hunused)
        (m.store.bind_grows c (ho.holds _) hfree) ?_
      intro x hx
      apply Store.object_modifyObject_of_ne
      rintro rfl
      exact Nat.lt_irrefl _ (Nat.lt_of_lt_of_le hx hn)
    · exact .refl hm
  | _ => exact .refl hm

theorem Honest.mono {W : Stock} {n k : Nat} (h : p.Honest W n) (hk : k ≤ n) :
    p.Honest W k := by
  obtain ⟨deed, m⟩ := p
  cases deed with
  | initialises o f => exact ⟨Nat.le_trans hk h.1, h.2⟩
  | fills o name c => exact ⟨Nat.le_trans hk h.1, h.2⟩
  | _ => exact h

end Moment

theorem Move.mono {W : Stock} {n k : Nat} {m m' : Machine} (h : Move W n m m') (hk : k ≤ n) :
    Move W k m m' := by
  cases h with
  | note e => exact .note e
  | print text h => exact .print text h
  | cell hfits hview => exact .cell hfits hview
  | table => exact .table
  | object hbase hkind hclass hlies => exact .object hbase hkind hclass hlies
  | rooted htype hkind hclass => exact .rooted htype hkind hclass
  | newClass hb hbase hsome => exact .newClass hb hbase hsome
  | bind ht hfield hnew hfree hc htakes hstill =>
    exact .bind ht hfield (fun o p hp => Nat.le_trans hk (hnew o p hp)) hfree hc htakes hstill
  | settle ho htype hlevels hmaking hlevel =>
    exact .settle ho htype (fun l hl => ⟨Nat.le_trans hk (hlevels l hl).1, (hlevels l hl).2⟩)
      hmaking hlevel
  | push ha => exact .push ha
  | pop => exact .pop
  | openScope ht => exact .openScope ht
  | closeScope => exact .closeScope
  | record names ha howner => exact .record names ha howner

/-- The machine goes from one state to another and passes the given moments. -/
inductive Path (W : Stock) (n : Nat) : Machine → List Moment → Machine → Prop where
  | stay (m : Machine) : Path W n m [] m
  | move {m m₁ m₂ : Machine} {t : List Moment} (h : Move W n m m₁) (rest : Path W n m₁ t m₂) :
      Path W n m t m₂
  | pass {p : Moment} {m : Machine} {t : List Moment} (h : p.Honest W n)
      (rest : Path W n p.after t m) : Path W n p.machine (p :: t) m

namespace Path

variable {W : Stock} {n k : Nat} {m m₁ m₂ : Machine} {t t₁ t₂ : List Moment}

theorem trans (h₁ : Path W n m t₁ m₁) (h₂ : Path W n m₁ t₂ m₂) : Path W n m (t₁ ++ t₂) m₂ := by
  induction h₁ with
  | stay m => exact h₂
  | move h _ ih => exact .move h (ih h₂)
  | pass h _ ih => exact .pass h (ih h₂)

theorem single (h : Move W n m m₁) : Path W n m [] m₁ := .move h (.stay m₁)

theorem moment (h : p.Honest W n) : Path W n p.machine [p] p.after :=
  .pass h (.stay _)

theorem mono (h : Path W n m t m₁) (hk : k ≤ n) : Path W k m t m₁ := by
  induction h with
  | stay m => exact .stay m
  | move h _ ih => exact .move (h.mono hk) ih
  | pass h _ ih => exact .pass (h.mono hk) ih

open Machine in
theorem onward (h : Path W n m t m₁) (hm : Ready W n m) : Onward W n m m₁ := by
  induction h with
  | stay m => exact .refl hm.sound
  | move h _ ih =>
    have hfirst := h.onward hm
    exact hfirst.trans (ih (hfirst.ready hm))
  | pass h _ ih =>
    have hfirst := Moment.onward h hm.sound
    exact hfirst.trans (ih (hfirst.ready hm))

/-- A moment on a path splits it: there the deed is honest, and both parts are paths. -/
theorem split (h : Path W n m (t₁ ++ p :: t₂) m₁) :
    Path W n m t₁ p.machine ∧ p.Honest W n ∧ Path W n p.after t₂ m₁ := by
  generalize ht : t₁ ++ p :: t₂ = t at h
  induction h generalizing t₁ with
  | stay m => simp at ht
  | move h _ ih =>
    obtain ⟨hbefore, hp, hafter⟩ := ih ht
    exact ⟨.move h hbefore, hp, hafter⟩
  | @pass q _ _ h rest ih =>
    cases t₁ with
    | nil =>
      obtain ⟨rfl, rfl⟩ := List.cons.inj ht
      exact ⟨.stay _, h, rest⟩
    | cons q' t₁ =>
      obtain ⟨rfl, rfl⟩ := List.cons.inj ht
      obtain ⟨hbefore, hp, hafter⟩ := ih rfl
      exact ⟨.pass h hbefore, hp, hafter⟩

end Path

end ObjectLang
