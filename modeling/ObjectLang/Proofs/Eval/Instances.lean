import ObjectLang.Proofs.Eval.Objects
import ObjectLang.Proofs.Store.Simple

/-!
Instances that are made without running code.
A level without fields is filled by making methods and binding names that are free, which cannot
fail. So a class all of whose levels are of this sort can always be instantiated: what comes out is
new, and nothing that was there is changed.
-/
namespace ObjectLang

open Machine Routine

variable {name : String} {p : Part}

namespace Store

variable {s s' : Store} {o : ObjectId}

def partNames (s : Store) (o : ObjectId) (p : Part) : List String :=
  (s.bindings (.part o p)).map Prod.fst

theorem refusal?_of_new (hname : p.rule.accepts name = true) (hnew : name ∉ s.partNames o p) :
    s.refusal? (.part o p) name = none := by
  have hlocal : s.local? (.part o p) name = none := by
    rw [local?, List.lookup_eq_none_iff]
    rintro ⟨n, c⟩ hmem
    have hne : name ≠ n := by
      rintro rfl
      exact hnew (List.mem_map.mpr ⟨(name, c), hmem, rfl⟩)
    simpa using hne
  simp [refusal?, rule_part, hname, hlocal]

end Store

namespace Eval

variable {W : Stock} {k : Inner} {m m' : Machine} {n : Nat} {o v c : ObjectId} {b : Blueprint}

/-- The routine succeeds, binds the given names on a part of a level, and only adds otherwise. -/
def Names (o : ObjectId) (p : Part) (names : List String) (x : Routine Unit) (m : Machine) : Prop :=
  ∃ m', x m = .done () m' ∧ m.Retains o.index m' ∧ m.store.Grows m'.store ∧
    ∀ q, m'.store.partNames o q =
      if q = p then names.reverse ++ m.store.partNames o q else m.store.partNames o q

theorem Names.nil (p : Part) : Names o p [] (pure ()) m :=
  ⟨m, rfl, .refl _ m, .refl _, fun q => by split <;> rfl⟩

theorem Names.cons {names : List String} {x : Routine Unit} {y : Routine Unit}
    (hx : Names o p [name] x m) (hy : ∀ m', x m = .done () m' → m.store.Grows m'.store →
      m'.store.partNames o p = name :: m.store.partNames o p → Names o p names y m') :
    Names o p (name :: names) (x >>= fun _ => y) m := by
  obtain ⟨m₁, hrun₁, hretains₁, hgrows₁, hnames₁⟩ := hx
  have hp : m₁.store.partNames o p = name :: m.store.partNames o p := by
    rw [hnames₁, if_pos rfl]
    rfl
  obtain ⟨m₂, hrun₂, hretains₂, hgrows₂, hnames₂⟩ := hy m₁ hrun₁ hgrows₁ hp
  refine ⟨m₂, by rw [bind_run_done hrun₁, hrun₂], hretains₁.trans hretains₂,
    hgrows₁.trans hgrows₂, fun q => ?_⟩
  rw [hnames₂, hnames₁]
  split
  · simp
  · rfl

def Prepares {α : Type} (o : ObjectId) (x : Routine α) (m : Machine) : Prop :=
  ∃ a m', x m = .done a m' ∧ m.Retains o.index m' ∧ m.store.Grows m'.store ∧
    ∀ q, m'.store.partNames o q = m.store.partNames o q

section Prepares

variable {α β : Type}

theorem Prepares.pure (a : α) : Prepares o (pure a : Routine α) m :=
  ⟨a, m, rfl, .refl _ m, .refl _, fun _ => rfl⟩

theorem Prepares.bind {x : Routine α} {f : α → Routine β} (hx : Prepares o x m)
    (hf : ∀ a m', m.store.Grows m'.store → Prepares o (f a) m') : Prepares o (x >>= f) m := by
  obtain ⟨a, m₁, hrun₁, hretains₁, hgrows₁, hsame₁⟩ := hx
  obtain ⟨b, m₂, hrun₂, hretains₂, hgrows₂, hsame₂⟩ := hf a m₁ hgrows₁
  exact ⟨b, m₂, by rw [bind_run_done hrun₁, hrun₂], hretains₁.trans hretains₂,
    hgrows₁.trans hgrows₂, fun q => (hsame₂ q).trans (hsame₁ q)⟩

theorem prepares_newCell (c : Cell) : Prepares o (newCell c) m :=
  ⟨_, _, newCell_run c m, .of_store (.newCell _ m.store c), m.store.newCell_grows c,
    fun p => by rw [Store.partNames, Store.bindings_newCell, ← Store.partNames]⟩

theorem prepares_makeMethod (ho : m.store.HasObject o) (code : Code) :
    Prepares o (makeMethod o code) m := by
  refine ⟨_, _, makeMethod_run o code m, .of_store (.addMethod (Nat.le_of_lt ho) m.roots o code),
    m.store.addMethod_grows m.roots o code, fun p => ?_⟩
  rw [Store.partNames, Store.bindings_part, Store.object_addMethod, if_neg, ← Store.bindings_part,
    ← Store.partNames]
  rintro rfl
  exact Nat.lt_irrefl _ ho

/-- A property with a getter gets its cell by making methods. -/
theorem prepares_propertyCell {plan : PropertyPlan} (ho : m.store.HasObject o)
    (hgetter : plan.getter ≠ none) : Prepares o (propertyCell k o plan) m := by
  have hsetter : Prepares o (maybeMethod o plan.setter) m := by
    cases plan.setter with
    | none => exact .pure none
    | some code => exact (prepares_makeMethod ho code).bind fun f _ _ => .pure (some f)
  obtain ⟨getter, hget⟩ := Option.ne_none_iff_exists'.mp hgetter
  rw [propertyCell, hget]
  exact hsetter.bind fun _ m₁ hgrows =>
    (prepares_makeMethod (ho.mono hgrows.sizes) getter).bind fun _ _ _ => prepares_newCell _

end Prepares

/-- A name is bound to a cell that was made for it. -/
theorem names_define {x : Routine CellId} (ho : m.store.HasObject o)
    (hname : p.rule.accepts name = true) (hnew : name ∉ m.store.partNames o p)
    (hx : Prepares o x m) : Names o p [name] (x >>= fun c => define (.part o p) name c) m := by
  obtain ⟨c, m₁, hrun, hretains, hgrows, hsame⟩ := hx
  have hfree : m₁.store.refusal? (.part o p) name = none :=
    Store.refusal?_of_new hname (by rwa [hsame])
  have ho₁ := ho.mono hgrows.sizes
  refine ⟨{ m₁ with store := m₁.store.bind (.part o p) name c }, ?_, ?_, ?_, fun q => ?_⟩
  · rw [bind_run_done hrun]
    exact define_run hfree m₁
  · exact hretains.trans (.of_store (.bindPart (Nat.le_refl _) p name c))
  · exact hgrows.trans (m₁.store.bind_grows c (ho₁.holds p) (Store.free_of_refusal? hfree))
  · rw [Store.partNames, Store.bindings_bind _ _ _ _ _ (ho₁.holds p)]
    by_cases hq : q = p
    · rw [if_pos (by rw [hq]), List.map_cons, ← Store.partNames, hsame, if_pos hq]
      rfl
    · rw [if_neg (by simpa using hq), ← Store.partNames, hsame, if_neg hq]

theorem defineMethod_names {code : Code} (ho : m.store.HasObject o)
    (hname : p.rule.accepts code.name = true) (hnew : code.name ∉ m.store.partNames o p) :
    Names o p [code.name] (defineMethod o p code) m := by
  have hcell : Prepares o (makeMethod o code >>= fun f => newCell (.const f)) m :=
    (prepares_makeMethod ho code).bind fun _ _ _ => prepares_newCell _
  obtain ⟨m', hrun, hrest⟩ := names_define ho hname hnew hcell
  exact ⟨m', by rw [← hrun, run_assoc]; rfl, hrest⟩

theorem names_forM {γ : Type} (p : Part) (f : γ → Routine Unit) (name : γ → String) (l : List γ)
    (ho : m.store.HasObject o) (haccepts : ∀ a ∈ l, p.rule.accepts (name a) = true)
    (hnodup : (l.map name).Nodup) (hnew : ∀ a ∈ l, name a ∉ m.store.partNames o p)
    (hf : ∀ a ∈ l, ∀ m, m.store.HasObject o → p.rule.accepts (name a) = true →
      name a ∉ m.store.partNames o p → Names o p [name a] (f a) m) :
    Names o p (l.map name) (l.forM f) m := by
  induction l generalizing m with
  | nil => exact .nil p
  | cons a rest ih =>
    have hmem := List.mem_cons_self (a := a) (l := rest)
    obtain ⟨hnot, hrest⟩ := List.nodup_cons.mp hnodup
    refine Names.cons (hf a hmem m ho (haccepts a hmem) (hnew a hmem)) ?_
    intro m' _ hgrows hnames
    refine ih (ho.mono hgrows.sizes) (fun b hb => haccepts b (List.mem_cons_of_mem _ hb)) hrest ?_
      fun b hb => hf b (List.mem_cons_of_mem _ hb)
    intro b hb hbound
    rw [hnames] at hbound
    rcases List.mem_cons.mp hbound with heq | hold
    · exact hnot (heq ▸ List.mem_map.mpr ⟨b, hb, rfl⟩)
    · exact hnew b (List.mem_cons_of_mem _ hb) hold

/-- A new level is filled as a simple blueprint asks for. -/
theorem fillLevel_simple (hb : b.Simple) (ho : m.store.HasObject o)
    (hempty : ∀ p, m.store.partNames o p = []) : ∃ m', fillLevel k b o m = .done () m' ∧
      m.Retains o.index m' ∧ m.store.Grows m'.store := by
  have hmembers : (b.methods.map Code.name ++ b.properties.map PropertyPlan.name).Nodup := by
    have hnames := hb.names .members
    rw [Blueprint.entries, List.map_append, List.map_map, List.map_map] at hnames
    exact hnames
  have hoperators : (b.operators.map Code.name).Nodup := by
    have hnames := hb.names .operators
    rw [Blueprint.entries, List.map_map] at hnames
    exact hnames
  obtain ⟨hmethods, hproperties, hdisjoint⟩ := List.nodup_append.mp hmembers
  have hnone : ∀ (m : Machine) (p : Part) (name : String), m.store.partNames o p = [] →
      name ∉ m.store.partNames o p := by
    intro m p name heq
    rw [heq]
    exact List.not_mem_nil
  obtain ⟨m₁, hrun₁, hretains₁, hgrows₁, hnames₁⟩ :=
    names_forM (m := m) .operators (defineMethod o .operators) Code.name b.operators ho
      (fun c hc => hb.accepted .operators _ (List.mem_map.mpr ⟨c, hc, rfl⟩)) hoperators
      (fun c _ => hnone m _ _ (hempty _)) fun c _ m ho => defineMethod_names ho
  have hfirst : m₁.store.partNames o .members = [] := by rw [hnames₁, if_neg (by simp), hempty]
  obtain ⟨m₂, hrun₂, hretains₂, hgrows₂, hnames₂⟩ :=
    names_forM (m := m₁) .members (defineMethod o .members) Code.name b.methods
      (ho.mono hgrows₁.sizes)
      (fun c hc => hb.accepted .members _
        (List.mem_append.mpr (Or.inl (List.mem_map.mpr ⟨c, hc, rfl⟩)))) hmethods
      (fun c _ => hnone m₁ _ _ hfirst) fun c _ m ho => defineMethod_names ho
  have hsecond : m₂.store.partNames o .members = (b.methods.map Code.name).reverse := by
    rw [hnames₂, if_pos rfl, hfirst, List.append_nil]
  obtain ⟨m₃, hrun₃, hretains₃, hgrows₃, -⟩ :=
    names_forM (m := m₂) .members (defineProperty k o) PropertyPlan.name b.properties
      ((ho.mono hgrows₁.sizes).mono hgrows₂.sizes)
      (fun c hc => hb.accepted .members _
        (List.mem_append.mpr (Or.inr (List.mem_map.mpr ⟨c, hc, rfl⟩)))) hproperties
      (fun c hc hbound => by
        rw [hsecond, List.mem_reverse] at hbound
        exact hdisjoint _ hbound _ (List.mem_map.mpr ⟨c, hc, rfl⟩) rfl)
      fun c hc m ho hname hnew =>
        names_define ho hname hnew (prepares_propertyCell ho (hb.getters c hc))
  refine ⟨m₃, ?_, hretains₁.trans (hretains₂.trans hretains₃),
    hgrows₁.trans (hgrows₂.trans hgrows₃)⟩
  rw [fillLevel, bind_run_done hrun₁, bind_run_done hrun₂, bind_run_done hrun₃, hb.vals, hb.vars]
  rfl

theorem silent_blueprint (c : ObjectId) : (blueprint c).Silent := by
  refine (silent_quiet _).bind fun kind => ?_
  split
  · exact silent_pure _
  · exact (silent_quiet _).bind fun _ => silent_quiet _

/-- No code is run to fill such a level. -/
theorem fillLevel_silent (hb : b.Simple) (o : ObjectId) :
    (fillLevel k b o).Silent := by
  have hmethod (p : Part) (code : Code) : (defineMethod o p code).Silent :=
    (makeMethod_silent o code).bind fun _ => silent_defineConst _ _ _
  have hproperty (p : PropertyPlan) (hp : p ∈ b.properties) : (defineProperty k o p).Silent := by
    have hsetter : (maybeMethod o p.setter).Silent := by
      cases p.setter with
      | none => exact silent_pure none
      | some code => exact (makeMethod_silent o code).bind fun _ => silent_pure _
    obtain ⟨getter, hget⟩ := Option.ne_none_iff_exists'.mp (hb.getters p hp)
    rw [defineProperty, propertyCell, hget]
    exact (hsetter.bind fun _ => (makeMethod_silent o getter).bind fun _ => silent_quiet _).bind
      fun _ => silent_quiet _
  rw [fillLevel, hb.vals, hb.vars]
  exact (Silent.forM fun c _ => hmethod _ c).bind fun _ =>
    (Silent.forM fun c _ => hmethod _ c).bind fun _ =>
      (Silent.forM hproperty).bind fun _ => (silent_pure ()).bind fun _ => silent_pure ()

/-- The machine has whatever the sound machine `m₀` has. -/
structure Backed (m₀ m : Machine) : Prop where
  store : m₀.store.Retains m₀.store.objects.size m.store
  builtins : m.builtins = m₀.builtins

namespace Backed

variable {m₀ : Machine}

theorem refl (m : Machine) : Backed m m := ⟨.refl _ _, rfl⟩

variable (h : Backed m₀ m)
include h

theorem within {a : Activation} (h' : m.Within a m') : Backed m₀ m' :=
  ⟨h.store.trans (h'.store.mono h.store.sizes.objects), h'.builtins.trans h.builtins⟩

theorem grows : m₀.store.Grows m.store := h.store.grows (Nat.le_refl _)

variable (hm₀ : m₀.Sound W)
include hm₀

theorem keeps_const {c : CellId} (hc : m₀.store.local? m₀.builtins name = some c)
    (hv : m₀.store.cell c = .const v) :
    m.store.local? m.builtins name = some c ∧ m.store.cell c = .const v := by
  have hcell := Store.hasCell_of_lookup hm₀.store.toWellformed (Store.lookup_of_local? hc)
  refine ⟨?_, h.grows.const hcell hv⟩
  rw [h.builtins]
  exact h.grows.bound _ _ _ hc

theorem builtin_const {c : CellId} (hc : m₀.store.local? m₀.builtins name = some c)
    (hv : m₀.store.cell c = .const v) (k : Inner) : (builtin k name).Finds m v := by
  obtain ⟨hc, hv⟩ := h.keeps_const hm₀ hc hv
  exact builtin_finds hc hv k

theorem nothing (k : Inner) : ∃ v, (Eval.nothing k).Finds m v := by
  obtain ⟨c, v, hc, hv⟩ := hm₀.nothing
  exact ⟨v, h.builtin_const hm₀ hc hv k⟩

/-- A class is called: its constructor runs in an activation of its own. -/
theorem dispatch_class (hc : m₀.store.kind c = .ofClass b) (d : Nat) : ∃ a m₁,
      (dispatch (.ofDepth (d + 1)) c "()" []).Reaches m
        ((instantiate (.ofDepth d) c .plain).ensuring leave) m₁ ∧ m.Within a m₁ := by
  obtain ⟨hface, i, f, hi, hf, hkind⟩ := hm₀.store.answers c b hc
  have hhas : m₀.store.HasObject c := Store.has_of_kind (by simp [hc])
  have hcell := Store.hasCell_of_lookup hm₀.store.toWellformed (Store.lookup_of_local? hi)
  have hlookup := Store.lookup_of_local? (h.grows.bound _ _ _ hi)
  have hf' := h.grows.const hcell hf
  have hkind' := h.grows.kind_of_ne hkind (by simp)
  obtain ⟨v, hnothing⟩ := h.nothing hm₀ (.ofDepth d)
  obtain ⟨a, m₁, hcall, hwithin⟩ := callMethod_primitive (superOf_finds hnothing c)
    .constructor (some c) [] rfl rfl rfl (by simp) List.nodup_nil
  have hne : f ≠ c := by
    rintro rfl
    rw [hc] at hkind
    cases hkind
  refine ⟨a, m₁, ?_, hwithin⟩
  have hface' : m₁.store.face c = c := by
    rw [(h.within hwithin).store.face hhas, Store.face, hface]
    rfl
  have hsee : see (·.kind f) m = .done (.method c .constructor) m := by
    rw [← hkind']
    rfl
  have hperform : (perform (.ofDepth d) .construct c []).Resumes m₁
      (instantiate (.ofDepth d) c .plain) m₁ := by
    have hself : see (·.face c) m₁ = .done c m₁ := by simp [see, quiet, hface']
    exact .bind hself (moments_quiet _ m₁)
  refine (dispatch_const hlookup hf' _ []).trans ?_
  rw [if_neg hne]
  refine .trans (.of_resumes (.bind hsee (moments_quiet _ m))) (hcall.trans (.of_resumes ⟨?_, ?_⟩))
  · simp only [ensuring, ending, Option.getD_some, hperform.run]
  · simpa [ensuring] using hperform.moments

end Backed

/-- What comes out of an instantiation that runs no code: a new instance of the class, and nothing
old is changed. -/
structure Made (m : Machine) (c : ObjectId) (kind : Kind) (o : ObjectId) (m' : Machine) : Prop where
  retains : m.Retains m.store.objects.size m'
  kind : m'.store.kind o = kind
  type : m'.store.type o = some c
  face : m'.store.face o = o
  has : ∀ l ∈ m'.store.levels o, m'.store.HasObject l
  new : ∀ l ∈ m'.store.levels o, m.store.objects.size ≤ l.index

/-- A level put on a chain that is new as well. -/
theorem instantiate_over (hc : m.store.kind c = .ofClass b) (hb : b.Simple) {base : Option ObjectId}
    {m₁ : Machine} (hbase : makeBase k b m = .done base m₁)
    (hretains : m.Retains m.store.objects.size m₁)
    (hhas : ∀ l ∈ base, ∀ x ∈ m₁.store.levels l, m₁.store.HasObject x)
    (hnew : ∀ l ∈ base, ∀ x ∈ m₁.store.levels l, m.store.objects.size ≤ x.index)
    (hstill : (makeBase k b).Still m) (kind : Kind) :
    ∃ o m', instantiate k c kind m = .done o m' ∧ Made m c kind o m' ∧
      (instantiate k c kind).Still m := by
  let o : ObjectId := m₁.store.fresh
  let m₂ : Machine := { m₁ with store := (m₁.store.newObject base kind).2 }
  have hobject : m₂.store.object o = .make kind (base.elim [] m₁.store.levels) := by
    rw [Store.object_newObject_self]
    cases base <;> rfl
  have ho : m₂.store.HasObject o := by simp [m₂, o, Store.HasObject]
  have hsizes : m.store.objects.size ≤ o.index := hretains.store.sizes.objects
  obtain ⟨m₃, hfill, hretains₃, hgrows⟩ := fillLevel_simple (k := k) hb ho fun p => by
    rw [Store.partNames, Store.bindings_part, hobject]
    cases p <;> rfl
  have hlevels : m₃.store.levels o = o :: base.elim [] m₁.store.levels := by
    rw [Store.levels, hgrows.below o ho, hobject]
    rfl
  have hhas₃ : ∀ l ∈ m₃.store.levels o, m₃.store.HasObject l := by
    intro l hl
    rw [hlevels] at hl
    rcases List.mem_cons.mp hl with rfl | hl
    · exact ho.mono hgrows.sizes
    · cases base with
      | none => cases hl
      | some x =>
        exact ((hhas x rfl l hl).mono (m₁.store.newObject_grows (some x) kind).sizes).mono
          hgrows.sizes
  have hnew₃ : ∀ l ∈ m₃.store.levels o, m.store.objects.size ≤ l.index := by
    intro l hl
    rw [hlevels] at hl
    rcases List.mem_cons.mp hl with rfl | hl
    · exact hsizes
    · cases base with
      | none => cases hl
      | some x => exact hnew x rfl l hl
  have hblueprint : blueprint c m = .done b m := by
    simp [blueprint, bind_run, see, quiet, hc, pure_run]
  refine ⟨o, { m₃ with store := m₃.store.settle o c }, ?_, ⟨?_, ?_, ?_, ?_, ?_, ?_⟩, ?_⟩
  · have htouch : touch (.instantiates c kind) m = .done () m := rfl
    have hobj : newObject base kind m₁ = .done o m₂ := rfl
    rw [instantiate, bind_run_done htouch, bind_run_done hblueprint, bind_run_done hbase,
      bind_run_done hobj, bind_run_done hfill]
    rfl
  · have hnewobj : m₁.Retains m.store.objects.size m₂ :=
      .of_store (.newObject hretains.store.sizes.objects base kind)
    exact hretains.trans (hnewobj.trans ((hretains₃.mono hsizes).trans
      (.of_store (.settle hnew₃ c))))
  · rw [(m₃.store.settle_grows o c).kind o (ho.mono hgrows.sizes), hgrows.kind o ho, Store.kind,
      hobject]
    rfl
  · rw [Store.type_settle _ _ (ho.mono hgrows.sizes), if_pos rfl]
  · rw [Store.face_settle _ _ hhas₃, if_pos (Store.mem_levels_self _ o)]
  · intro l hl
    rw [Store.levels_settle] at hl
    exact (hhas₃ l hl).mono (m₃.store.settle_grows o c).sizes
  · intro l hl
    rw [Store.levels_settle] at hl
    exact hnew₃ l hl
  · have htouch : (touch (.instantiates c kind)).Still m := by
      rw [Still, moments_touch, List.forall_mem_singleton]
      rfl
    refine htouch.bind ?_
    rintro _ _ ⟨⟩
    refine Still.bind (still_of_silent (silent_blueprint c m)) fun b' m' hrun => ?_
    cases hblueprint.symm.trans hrun
    refine hstill.bind fun base m' _ => ?_
    exact still_of_silent (Silent.bind (silent_quiet _) (fun o => (fillLevel_silent hb o).bind
      fun _ => (silent_quiet _).bind fun _ => (silent_quiet _).bind fun _ => silent_pure o) m')

/-- A class whose levels are all simple is instantiated, however deep the machine may still go as
long as there is a level of the evaluator for each class below. -/
theorem Backed.instantiate_simple {m₀ : Machine} (hm₀ : m₀.Sound W) {j : Nat}
    (hc : m₀.store.Simple j c) {d : Nat} (hd : j ≤ d + 1) (h : Backed m₀ m) (kind : Kind) :
    ∃ o m', instantiate (.ofDepth d) c kind m = .done o m' ∧ Made m c kind o m' ∧
      (instantiate (.ofDepth d) c kind).Still m := by
  induction hc generalizing d m kind with
  | @top n c b hc hb hbase =>
    have hnone : makeBase (.ofDepth d) b m = .done none m := by
      rw [makeBase, hbase]
      rfl
    refine instantiate_over (h.grows.kind_of_ne hc (by simp)) hb hnone (.refl _ m)
      (by simp) (by simp) ?_ kind
    rw [makeBase, hbase]
    exact still_of_silent (moments_pure none m)
  | @above n c base b hc hb hbase hsimple ih =>
    obtain ⟨d, rfl⟩ : ∃ d', d = d' + 1 := by
      cases hsimple <;> exact ⟨d - 1, by omega⟩
    obtain ⟨b', hb'⟩ : ∃ b', m₀.store.kind base = .ofClass b' := by
      cases hsimple <;> exact ⟨_, ‹_›⟩
    obtain ⟨a, m₁, hcall, hwithin⟩ := h.dispatch_class hm₀ hb' d
    obtain ⟨o, m₂, hrun, hmade, hstill⟩ := ih (d := d) (by omega) (h.within hwithin) .plain
    have hsizes : m.store.objects.size ≤ m₁.store.objects.size := hwithin.store.sizes.objects
    have hmake : makeBase (.ofDepth (d + 1)) b m = .done (some o) m₂.leave := by
      rw [makeBase, hbase, map_run, hcall.run]
      simp only [ensuring, ending, hrun]
    refine instantiate_over (h.grows.kind_of_ne hc (by simp)) hb hmake
      (hwithin.leave (hmade.retains.mono hsizes)) ?_ ?_ ?_ kind
    · rintro l ⟨⟩
      rw [store_leave]
      exact hmade.has
    · rintro l ⟨⟩ x hx
      rw [store_leave] at hx
      exact Nat.le_trans hsizes (hmade.new x hx)
    · rw [makeBase, hbase]
      refine Still.bind (hcall.still ?_) fun _ m' _ => still_of_silent (moments_pure _ m')
      rw [Still, Routine.ensuring, moments_ending]
      exact hstill

/-- A value of a builtin class is made, whatever the machine is like, if only it may go one level
deeper. -/
theorem Backed.instanceOf_run {m₀ : Machine} (h : Backed m₀ m) (hm₀ : m₀.Sound W) {i : CellId}
    (hi : m₀.store.local? m₀.builtins name = some i) (hc : m₀.store.cell i = .const c)
    (hsimple : m₀.store.Simple 2 c) (d : Nat) (kind : Kind) :
    ∃ o m', instanceOf (.ofDepth (d + 1)) name kind m = .done o m' ∧ Made m c kind o m' ∧
      (instanceOf (.ofDepth (d + 1)) name kind).Still m := by
  have hclass := h.builtin_const hm₀ hi hc (.ofDepth (d + 1))
  obtain ⟨o, m', hrun, hmade, hstill⟩ :=
    h.instantiate_simple hm₀ hsimple (d := d + 1) (by omega) kind
  refine ⟨o, m', by rw [instanceOf, bind_run_done hclass.run, hrun], hmade, ?_⟩
  exact (Reaches.bind hclass.run hclass.still).still hstill

end Eval

end ObjectLang
