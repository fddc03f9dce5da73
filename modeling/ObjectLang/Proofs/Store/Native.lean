import ObjectLang.Proofs.Store.Guarded

/-!
Native stores: what the machine itself furnishes, before any program.
All code consists of primitives that raise no fault of their choice, no object has a field, no cell
is a variable or a view, and there are no closures and no modules. Of such a store it can be
computed whether all is in order.
-/
namespace ObjectLang

section Decidability

instance (s : Store) (o : ObjectId) : Decidable (s.HasObject o) :=
  inferInstanceAs (Decidable (_ < _))

instance (s : Store) (c : CellId) : Decidable (s.HasCell c) := inferInstanceAs (Decidable (_ < _))

instance (s : Store) : (t : TableId) → Decidable (s.HasTable t)
  | .free i =>
    decidable_of_iff (i < s.tables.size) ⟨fun h => ⟨i, rfl, h⟩, by rintro ⟨_, ⟨⟩, h⟩; exact h⟩
  | .part .. => isFalse (by rintro ⟨_, ⟨⟩, _⟩)

instance decideEach {α β : Type} {x : β} {f : α → β} {P : α → Prop}
    [Decidable (∃ a, x = f a ∧ ¬ P a)] : Decidable (∀ a, x = f a → P a) :=
  decidable_of_iff (¬ ∃ a, x = f a ∧ ¬ P a) (by simp)

instance Store.decideObjects {s : Store} {P : ObjectId → Prop} [DecidablePred P] :
    Decidable (∀ o, s.HasObject o → P o) :=
  decidable_of_iff (∀ i < s.objects.size, P ⟨i⟩)
    ⟨fun h o ho => h o.index ho, fun h i hi => h ⟨i⟩ hi⟩

instance Store.decideCells {s : Store} {P : CellId → Prop} [DecidablePred P] :
    Decidable (∀ c, s.HasCell c → P c) :=
  decidable_of_iff (∀ i < s.cells.size, P ⟨i⟩)
    ⟨fun h c hc => h c.index hc, fun h i hi => h ⟨i⟩ hi⟩

instance Part.decideAll {P : Part → Prop} [DecidablePred P] : Decidable (∀ p, P p) :=
  decidable_of_iff (P .fields ∧ P .operators ∧ P .members)
    ⟨fun ⟨_, _, _⟩ p => by cases p <;> assumption, fun h => ⟨h _, h _, h _⟩⟩

instance Kind.decideCallable : DecidablePred Kind.Callable := fun k => by
  cases k <;> unfold Callable <;> infer_instance

instance Kind.decideDefinition : DecidablePred Kind.Definition := fun k => by
  cases k <;> unfold Definition <;> infer_instance

instance {s : Store} {sort : Code → Bool} {f : ObjectId} : Decidable (s.MethodBy sort f) :=
  inferInstanceAs (Decidable (∃ _ _, _ = Kind.method _ _ ∧ _))

instance {s : Store} {o : ObjectId} : Decidable (s.Ordinary o) :=
  inferInstanceAs (Decidable (_ ∧ _))

instance {s : Store} {o : ObjectId} : Decidable (s.Bearer o) := inferInstanceAs (Decidable (_ ∧ _))

instance {s : Store} {c : CellId} : Decidable (s.Discreet c) := inferInstanceAs (Decidable (_ ∧ _))

end Decidability

def Params.names : Params → List String
  | .fixed names => names
  | .any => []

def Code.Native (c : Code) : Prop :=
  (∃ p, c.body = .primitive p) ∧ c.home = none ∧ c.apt = true ∧
    ∀ n ∈ c.params.names, NameRule.symbol.accepts n = true

def PropertyPlan.Native (p : PropertyPlan) : Prop :=
  NameRule.symbol.accepts p.name = true ∧ p.setter = none ∧
    ∃ c, p.getter = some c ∧ c.Native ∧ c.hides = false ∧ c.tells = true

instance Body.decidePrimitive {b : Body} : Decidable (∃ p, b = .primitive p) :=
  match b with
  | .primitive p => .isTrue ⟨p, rfl⟩
  | .block _ => .isFalse (by simp)

instance : DecidablePred Code.Native := fun _ => inferInstanceAs (Decidable (_ ∧ _))

instance : DecidablePred PropertyPlan.Native := fun _ => inferInstanceAs (Decidable (_ ∧ _))

@[mk_iff] structure Blueprint.Native (s : Store) (b : Blueprint) : Prop where
  base : ∀ c ∈ b.base, s.Ordinary c
  operators : ∀ c ∈ b.operators, c.Native ∧ NameRule.operator.accepts c.name = true ∧
    (c.looks = true → c.name = ".") ∧ (c.name = "." → c.reads = true)
  methods : ∀ c ∈ b.methods, c.Native ∧ NameRule.symbol.accepts c.name = true ∧ c.hides = false
  properties : ∀ p ∈ b.properties, p.Native
  vals : b.vals.isEmpty = true
  vars : b.vars.isEmpty = true
  home : b.home = none

instance {s : Store} {b : Blueprint} : Decidable (b.Native s) :=
  decidable_of_iff' _ (Blueprint.native_iff s b)

def Kind.Native (s : Store) : Kind → Prop
  | .ofClass b => b.Native s
  | .method owner code => s.Ordinary owner ∧ code.Native
  | .function code => code.Native ∧ code.hides = false
  | .closure .. | .ofModule _ | .moduleAlias .. => False
  | _ => True

def Cell.Native (s : Store) : Cell → Prop
  | .const v => s.HasObject v
  | .computed getter none => s.Ordinary getter ∧ s.MethodBy Code.tells getter
  | _ => False

namespace Store

variable (s : Store)

def Implements (l : ObjectId) (code : Code) (f : ObjectId) : Prop :=
  ∃ owner c, s.kind f = .method owner c ∧ owner = l ∧ c.same code = true

def Operates (o : ObjectId) (b : String × CellId) : Prop :=
  s.HasCell b.2 ∧ s.Bearer o ∧ ∃ f, s.cell b.2 = .const f ∧ s.Performs o b.1 f ∧
    (s.MethodBy Code.hides f → (s.MethodBy Code.looks f → b.1 = ".") ∧ o ≠ f ∨ b.1 = "()" ∧ o = f) ∧
    (b.1 = "." → s.MethodBy Code.reads f)

def Provides (l : ObjectId) : Entry → CellId → Prop
  | .method code, c => ∃ f, s.cell c = .const f ∧ s.Implements l code f
  | .property ⟨_, some getter, none⟩, c => ∃ g, s.cell c = .computed g none ∧
      s.Implements l getter g
  | _, _ => False

def Filled (o : ObjectId) (b : Blueprint) (p : Part) : Prop :=
  let bs := s.bindings (.part o p)
  let own := bs.length - (b.entries p).length
  let given := (bs.drop own).reverse
  (∀ x ∈ bs.take own, p = .operators ∧ x.1 = "()") ∧ (b.entries p).length = given.length ∧
    ∀ x ∈ (b.entries p).zip given, x.2.1 = x.1.name ∧ s.Provides o x.1 x.2.2

/-- All that an object of the machine itself has to be like. -/
@[mk_iff] structure Built (root o : ObjectId) : Prop where
  kind : (s.kind o).Native s
  type : ∀ t, s.type o = some t → s.Ordinary t
  below : ∀ l ∈ (s.object o).below, s.Ordinary l ∧ l.index < o.index ∧
    (∀ x ∈ s.levels l, x ∈ s.levels o) ∧ ¬ (s.kind l).Callable
  stacked : ∀ l, s.base o = some l → (s.object o).below = s.levels l
  face : ∀ f, (s.object o).face = some f → s.HasObject f ∧ o ∈ s.levels f ∧ (f = o ∨ s.Ordinary f)
  fixed : s.face (s.face o) = s.face o
  rooted : root ∈ s.levels o → s.face o = o
  whole : root ∉ s.levels o → (∀ l ∈ s.levels o, s.face l = o) ∨
    root ∉ s.levels (s.face o) ∧ o ∈ (s.object (s.face o)).below
  fields : (s.object o).fields = []
  operators : ∀ b ∈ (s.object o).operators, s.Operates o b ∧ NameRule.operator.accepts b.1 = true
  members : ∀ b ∈ (s.object o).members, s.Discreet b.2 ∧ NameRule.symbol.accepts b.1 = true
  names : ∀ p, ((s.bindings (.part o p)).map Prod.fst).Nodup
  answer : root ∈ (s.object o).below → ∀ x ∈ (s.object o).operators, x.1 = "()"
  defined : (s.kind o).Definition → (s.object o).below = [root]
  callable : (s.kind o).Callable → s.local? (.part o .operators) "()" ≠ none
  constructor : ∀ b, s.kind o = .ofClass b → (s.object o).face = some o ∧
    (∃ i, s.local? (.part o .operators) "()" = some i ∧ ∃ f, s.cell i = .const f ∧
      s.Implements o .constructor f) ∧
    ∀ base ∈ b.base, base.index < o.index ∧ ∃ b', s.kind base = .ofClass b'
  level : ∀ c, s.type o = some c → root ∉ s.levels o → ∃ b, s.kind c = .ofClass b ∧
    (s.base o).map s.type = b.base.map some ∧ ∀ p, s.Filled o b p

/-- The same of a table, as one of the registry or of names. -/
@[mk_iff] structure Laid (R : TableId) (i : Nat) : Prop where
  outer : (s.table i).outer = []
  bindings : ∀ b ∈ (s.table i).bindings, s.Discreet b.2 ∧ (s.cell b.2).Still ∧
    (s.table i).rule.accepts b.1 = true
  names : ((s.table i).bindings.map Prod.fst).Nodup
  rule : .free i = R ∨ (s.table i).rule = .symbol

/-- A store that the machine itself has furnished, with `object` as the class over no other. -/
@[mk_iff] structure Native (R : TableId) (root object : ObjectId) : Prop where
  bottom : s.HasObject root ∧ (s.object root).below = []
  passive : ¬ (s.kind root).Callable
  registry : s.HasTable R ∧ s.rule R = .dotted ∧ s.bindings R = []
  typed : ∀ o, s.HasObject o → s.type o ≠ none
  objects : ∀ o, s.HasObject o → s.Built root o
  cells : ∀ c, s.HasCell c → (s.cell c).Native s
  tables : ∀ i < s.tables.size, s.Laid R i
  lone : ∀ o, s.HasObject o → ∀ b, s.kind o = .ofClass b → b.base = none → o = object

end Store

section

variable {s : Store} {o root : ObjectId}

instance {k : Kind} : Decidable (k.Native s) := by
  cases k <;> unfold Kind.Native <;> infer_instance

instance {c : Cell} : Decidable (c.Native s) := by
  rcases c with _ | _ | ⟨_, _ | _⟩ | _ <;> unfold Cell.Native <;> infer_instance

instance {l f : ObjectId} {code : Code} : Decidable (s.Implements l code f) :=
  inferInstanceAs (Decidable (∃ _ _, _ = Kind.method _ _ ∧ _))

instance {op : String} {f : ObjectId} : Decidable (s.Performs o op f) :=
  inferInstanceAs (Decidable (_ ∨ _))

instance {b : String × CellId} : Decidable (s.Operates o b) :=
  inferInstanceAs (Decidable (_ ∧ _ ∧ ∃ _, _ = Cell.const _ ∧ _))

instance {l : ObjectId} {e : Entry} {c : CellId} : Decidable (s.Provides l e c) := by
  rcases e with _ | ⟨_, _ | _, _ | _⟩ | _ | _ <;> unfold Store.Provides <;> infer_instance

instance {b : Blueprint} {p : Part} : Decidable (s.Filled o b p) :=
  inferInstanceAs (Decidable (_ ∧ _ ∧ _))

set_option synthInstance.maxSize 1024 in
set_option synthInstance.maxHeartbeats 200000 in
instance : Decidable (s.Built root o) := decidable_of_iff' _ (Store.built_iff s root o)

instance {R : TableId} {i : Nat} : Decidable (s.Laid R i) :=
  decidable_of_iff' _ (Store.laid_iff s R i)

instance {R : TableId} {object : ObjectId} : Decidable (s.Native R root object) :=
  decidable_of_iff' _ (Store.native_iff s R root object)

instance {b : Blueprint} : Decidable b.Simple := decidable_of_iff' _ (Blueprint.simple_iff b)

instance Store.decideSimple : (n : Nat) → (c : ObjectId) → Decidable (s.Simple n c)
  | 0, _ => .isFalse nofun
  | n + 1, c =>
    have := decideSimple n
    decidable_of_iff (∃ b, s.kind c = .ofClass b ∧ b.Simple ∧
        ∀ base, b.base = some base → s.Simple n base) (by
      constructor
      · rintro ⟨b, hc, hb, hbase⟩
        cases h : b.base with
        | none => exact .top hc hb h
        | some base => exact .above hc hb h (hbase base h)
      · rintro (⟨hc, hb, hbase⟩ | ⟨hc, hb, hbase, h⟩)
        · exact ⟨_, hc, hb, by simp [hbase]⟩
        · refine ⟨_, hc, hb, ?_⟩
          rw [hbase]
          rintro _ ⟨⟩
          exact h)

end

section Furnished

variable {W : Stock} {R t : TableId} {s : Store} {o root : ObjectId} {code : Code} {b : Blueprint}
  {k : Kind} {c : CellId}

namespace Code.Native

theorem fits (h : code.Native) : code.Fits W s := by
  obtain ⟨name, params, body, home⟩ := code
  obtain ⟨⟨p, rfl⟩, rfl, hapt, -⟩ := h
  refine ⟨?_, by simp⟩
  rintro f rfl
  cases hapt

theorem proper (h : code.Native) : code.Proper R := by
  obtain ⟨name, params, body, home⟩ := code
  obtain ⟨⟨p, rfl⟩, rfl, hapt, hparams⟩ := h
  refine ⟨?_, ?_, by simp⟩
  · rintro names rfl x hx
    obtain ⟨n, hn, rfl⟩ := List.mem_map.mp hx
    exact hparams n hn
  · rintro f rfl
    cases hapt

theorem not_seesCaller (h : code.Native) (hides : code.hides = false) : ¬ code.SeesCaller := by
  obtain ⟨name, params, body, home⟩ := code
  obtain ⟨-, rfl, hapt, -⟩ := h
  rintro ⟨p, rfl, hp⟩
  cases p with
  | member => cases hides
  | callerText => cases hapt
  | _ => cases hp

end Code.Native

theorem Blueprint.Native.sound (h : b.Native s) : b.Fits W s ∧ b.Proper R ∧ b.Apt s := by
  have hvals := List.isEmpty_iff.mp h.vals
  have hvars := List.isEmpty_iff.mp h.vars
  have hproperty : ∀ p ∈ b.properties, p.Fits W s ∧ p.Proper R ∧ p.Apt := by
    intro p hp
    obtain ⟨hname, hsetter, c, hgetter, hc, hlooks, htells⟩ := h.properties p hp
    refine ⟨⟨?_, by simp [hsetter]⟩, ⟨hname, ?_, by simp [hsetter]⟩, ⟨?_, by simp [hsetter]⟩⟩ <;>
      rw [hgetter] <;> rintro _ ⟨⟩
    · exact hc.fits
    · exact hc.proper
    · exact ⟨⟨hc.2.2.1, hlooks⟩, htells⟩
  refine ⟨⟨fun c hc => (h.base c hc).1, fun c hc => (h.operators c hc).1.fits,
      fun c hc => (h.methods c hc).1.fits, fun p hp => (hproperty p hp).1, by simp [hvals],
      by simp [hvars], by simp [h.home]⟩,
    ⟨fun c hc => ⟨(h.operators c hc).1.proper, (h.operators c hc).2.1⟩,
      fun c hc => ⟨(h.methods c hc).1.proper, (h.methods c hc).2.1⟩,
      fun p hp => (hproperty p hp).2.1, by simp [hvals], by simp [hvars], by simp [h.home]⟩,
    ⟨h.base, fun c hc => ⟨(h.operators c hc).1.2.2.1, (h.operators c hc).2.2⟩,
      fun c hc => ⟨(h.methods c hc).1.2.2.1, (h.methods c hc).2.2⟩,
      fun p hp => (hproperty p hp).2.2, by simp [h.home]⟩⟩

namespace Kind.Native

theorem regular (h : k.Native s) : s.Regular k := by
  refine ⟨?_, ?_, ?_, ?_⟩
  · rintro p rfl
    exact h.elim
  · rintro code rfl
    exact h.1.not_seesCaller h.2
  · rintro code captured rfl
    exact h.elim
  · rintro target p rfl
    exact h.elim

theorem sound (h : k.Native s) : k.Fits W s ∧ k.Proper R ∧ k.Apt s := by
  cases k with
  | ofClass b => exact Blueprint.Native.sound h
  | method owner code =>
    obtain ⟨howner, hcode⟩ := h
    exact ⟨⟨howner.1, hcode.fits⟩, hcode.proper, howner, hcode.2.2.1⟩
  | function code =>
    obtain ⟨hcode, hlooks⟩ := h
    exact ⟨hcode.fits, hcode.proper, hcode.2.2.1, hlooks⟩
  | closure code captured => exact h.elim
  | ofModule p => exact h.elim
  | moduleAlias target p => exact h.elim
  | _ => exact ⟨trivial, trivial, trivial⟩

end Kind.Native

theorem Cell.Native.sound {c : Cell} (h : c.Native s) :
    c.Fits s ∧ c.Apt s ∧ (∀ v, c ≠ .var v) ∧ ∀ x, c ≠ .view x := by
  rcases c with v | v | ⟨getter, _ | setter⟩ | x
  · exact h.elim
  · exact ⟨h, h, nofun, nofun⟩
  · exact ⟨⟨h.1.1, by simp⟩, ⟨h, by simp⟩, nofun, nofun⟩
  · exact h.elim
  · exact h.elim

namespace Store

theorem Implements.methodOf {l f : ObjectId} (h : s.Implements l code f) : s.MethodOf l code f := by
  obtain ⟨owner, c, hkind, rfl, hsame⟩ := h
  rw [MethodOf, hkind, Code.eq_of_same hsame]

theorem Provides.bound {l : ObjectId} {e : Entry} (h : s.Provides l e c) : e.Bound s l c := by
  rcases e with code | ⟨_, _ | getter, _ | setter⟩ | _ | _
  · obtain ⟨f, hf, hcode⟩ := h
    exact ⟨f, hf, hcode.methodOf⟩
  · exact h.elim
  · exact h.elim
  · obtain ⟨g, hg, hcode⟩ := h
    exact ⟨g, hg, hcode.methodOf⟩
  all_goals exact h.elim

theorem Filled.lists {p : Part} (h : s.Filled o b p) : ∃ own given,
    s.bindings (.part o p) = own ++ given ∧ (∀ x ∈ own, p = .operators ∧ x.1 = "()") ∧
      List.Forall₂ (fun e x => x.1 = e.name ∧ e.Bound s o x.2) (b.entries p) given.reverse := by
  refine ⟨_, _, (List.take_append_drop _ _).symm, h.1, List.forall₂_iff_zip.mpr ⟨h.2.1, ?_⟩⟩
  intro e x hx
  exact ⟨(h.2.2 (e, x) hx).1, (h.2.2 (e, x) hx).2.bound⟩

theorem Operates.allows {x : String × CellId} (h : s.Operates o x) :
    s.Allows (.part o .operators) x := by
  obtain ⟨hhas, hbearer, f, hf, hperforms, hlooks, hreads⟩ := h
  refine ⟨hhas, fun g hg hlook => ⟨o, rfl, ?_⟩, ?_, ?_⟩
  · cases hf.symm.trans hg
    exact hlooks hlook
  · rintro _ ⟨⟩
    exact ⟨f, hf, hperforms, hreads⟩
  · rintro _ ⟨⟩
    exact hbearer

/-- What was never given out is as plain as can be. -/
theorem Built.vacant (ho : ¬ s.HasObject o) : s.Built root o := by
  have hobject := object_of_not_has ho
  have hface : s.face o = o := by rw [Store.face, hobject]; rfl
  have hlevels : s.levels o = [o] := by rw [levels, hobject]; rfl
  have hkind : s.kind o = .plain := by rw [Store.kind, hobject]; rfl
  have hbindings : ∀ p, s.bindings (.part o p) = [] := by
    intro p
    rw [bindings_part, hobject]
    cases p <;> rfl
  constructor
  case kind => rw [hkind]; trivial
  case whole => simp [hlevels, hface]
  case fixed => rw [hface, hface]
  case rooted => exact fun _ => hface
  all_goals simp [hobject, hkind, hbindings, Store.type, base, Object.vacant, Kind.Definition,
    Kind.Callable]

namespace Native

variable {object : ObjectId} (h : s.Native R root object)
include h

theorem built (o : ObjectId) : s.Built root o := by
  by_cases ho : s.HasObject o
  · exact h.objects o ho
  · exact .vacant ho

theorem laid (i : Nat) : s.Laid R i := by
  by_cases hi : i < s.tables.size
  · exact h.tables i hi
  · constructor <;> simp [table_of_size_le (Nat.not_lt.mp hi), Table.empty]

theorem binds {n : String} (hc : s.Binds t n c) :
    s.Allows t (n, c) ∧ (s.rule t).accepts n = true := by
  cases t with
  | free i =>
    obtain ⟨hdiscreet, -, haccepts⟩ := (h.laid i).bindings (n, c) hc
    exact ⟨hdiscreet.allows (by simp) n, haccepts⟩
  | part o p =>
    cases p with
    | fields =>
      rw [Binds, bindings_part, Object.bindings, (h.built o).fields] at hc
      cases hc
    | operators =>
      obtain ⟨hoperates, haccepts⟩ := (h.built o).operators (n, c) hc
      exact ⟨hoperates.allows, haccepts⟩
    | members =>
      obtain ⟨hdiscreet, haccepts⟩ := (h.built o).members (n, c) hc
      exact ⟨hdiscreet.allows (by simp) n, haccepts⟩

theorem no_field {x : String} : (x, c) ∉ s.bindings (.part o .fields) := by
  rw [bindings_part, Object.bindings, (h.built o).fields]
  exact List.not_mem_nil

theorem no_view {v : CellId} : s.cell v ≠ .view c :=
  fun hv => (h.cells v (hasCell_of_view hv)).sound.2.2.2 c hv

theorem no_module (p : ModuleParts) : ¬ s.HasModule p :=
  fun ⟨o, ho⟩ => (h.built o).kind.regular.noModule p ho

theorem sound : s.Sound W where
  objects o := ⟨((h.built o).kind.sound (R := R)).1, fun l hl => ((h.built o).below l hl).1.1,
    fun f hf => ((h.built o).face f hf).1, fun t ht => ((h.built o).type t ht).1,
    fun p b hb => (h.binds (t := .part o p) hb).1.has⟩
  cells c hc := (h.cells c hc).sound.1
  tables i := ⟨fun b hb => ((h.laid i).bindings b hb).1.1, (h.laid i).outer⟩
  fieldOnly _ _ _ hx := absurd hx h.no_field
  unviewed _ _ hv := absurd hv h.no_view
  faces o f hf := ((h.built o).face f hf).2.1
  quiet i b hb := ((h.laid i).bindings b hb).2.1
  answers c b hc := by
    obtain ⟨hface, ⟨i, hi, f, hf, hcode⟩, -⟩ := (h.built c).constructor b hc
    exact ⟨hface, i, f, hi, hf, hcode.methodOf⟩
  bases c b hc := ((h.built c).constructor b hc).2.2
  lone c c' b b' hc hc' hb hb' := by
    exact (h.lone c (has_of_kind (by simp [hc])) b hc hb).trans
      (h.lone c' (has_of_kind (by simp [hc'])) b' hc' hb').symm

theorem tidy : s.Tidy where
  bound _ _ _ hc := (h.binds hc).1.has
  named _ _ _ hc := (h.binds hc).2
  placed p hp := absurd hp (h.no_module p)
  disjoint p _ _ _ hp := absurd hp (h.no_module p)
  shown p _ _ hp := absurd hp (h.no_module p)
  views _ _ hv := absurd hv h.no_view
  single _ _ _ _ c v hc _ hv := absurd hv ((h.cells c (h.binds hc).1.has).sound.2.2.1 v)
  regular o _ := (h.built o).kind.regular
  older _ _ hv := absurd hv h.no_view
  hidden p _ _ hp := absurd hp (h.no_module p)
  body p _ _ hp := absurd hp (h.no_module p)

theorem complete (o : ObjectId) (ho : s.HasObject o) : s.Complete o :=
  ⟨h.typed o ho, (h.built o).callable⟩

theorem faced : s.Faced root := by
  have hsound : s.Sound ⟨fun _ => True, fun _ => True, fun _ _ => trivial⟩ := h.sound
  have hface : ∀ o, s.face o = o ∨ s.HasObject (s.face o) ∧ o ∈ s.levels (s.face o) := by
    intro o
    rw [face]
    cases hf : (s.object o).face with
    | none => exact Or.inl rfl
    | some f => exact Or.inr ⟨((h.built o).face f hf).1, ((h.built o).face f hf).2.1⟩
  refine ⟨⟨h.typed root h.bottom.1, h.passive⟩,
    fun o ho => ⟨hsound.has_face ho, fun l => hsound.has_level ho⟩,
    fun o l hl => ((h.built o).below l hl).2.1, fun o l hl x hx => ?_,
    fun o l hl => ⟨h.typed l ((h.built o).below l hl).1.1, ((h.built o).below l hl).2.2.2⟩,
    fun o => ?_, fun o => (h.built o).fixed, fun o hne => h.typed _ ((hface o).resolve_left hne).1,
    fun o => (h.built o).rooted, fun o ho => ?_⟩
  · rcases List.mem_cons.mp hl with rfl | hl
    · exact hx
    · exact ((h.built o).below l hl).2.2.1 x hx
  · rcases hface o with heq | hworn
    · rw [heq]
      exact mem_levels_self s o
    · exact hworn.2
  · refine ((h.built o).whole ho.2).imp_right fun hworn => ?_
    exact ⟨s.face o, ⟨h.typed _ (hsound.has_face ho.has), hworn.1⟩, hworn.2⟩

theorem proper : s.Proper R root where
  registry := h.registry.1
  dotted := h.registry.2.1
  rules := by
    rintro t ⟨⟨i, rfl⟩, hne⟩
    exact (h.laid i).rule.resolve_left hne
  outer i := (h.laid i).outer
  named _ _ _ hc := (h.binds hc).2
  kinds o := ((h.built o).kind.sound (W := ⟨fun _ => True, fun _ => True, fun _ _ => trivial⟩)).2.1
  bottom := h.bottom
  defined o := (h.built o).defined
  enrolled n c hc := by
    rw [Binds, h.registry.2.2] at hc
    cases hc

theorem classed : s.Classed root where
  stacked o := (h.built o).stacked
  level o ho := by
    obtain ⟨c, hc⟩ := Option.ne_none_iff_exists'.mp ho.1
    obtain ⟨b, hb, hbase, hfilled⟩ := (h.built o).level c hc ho.2
    exact ⟨c, b, hc, hb, fun p => (hfilled p).lists, hbase⟩
  rooted o _ := (h.built o).answer
  stored _ _ _ hx := absurd hx h.no_field

theorem distinct : s.Distinct := by
  intro t
  cases t with
  | free i => exact (h.laid i).names
  | part o p => exact (h.built o).names p

theorem guarded : s.Guarded where
  kinds o := ((h.built o).kind.sound (W := ⟨fun _ => True, fun _ => True, fun _ _ => trivial⟩)
    (R := R)).2.2
  cells c hc := (h.cells c hc).sound.2.1
  bindings _ _ hb := (h.binds hb).1
  below o l hl := ((h.built o).below l hl).1
  face o f hf := ((h.built o).face f hf).2.2
  type o := (h.built o).type
  outer i := (h.laid i).outer

end Native

end Store

end Furnished

end ObjectLang
