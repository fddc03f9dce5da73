import ObjectLang.Proofs.Eval.Fill

/-!
Making instances, functions, closures and classes.
An instance is built on the chain that the class below gives, which is new by then, so that taking a
face disturbs no object that was there before.
-/
namespace ObjectLang

open Machine Routine

/-- What a class finds below the level that it adds: the chain of its superclass, if it has one,
which wears the face of its topmost level. -/
def Under (s : Store) (n : Nat) (b : Blueprint) (base : Option ObjectId) (t : List Moment) : Prop :=
  ∃ cs face, (∀ c, s.kind c = .ofClass b → s.Lineage c (c :: cs)) ∧
    Chain s n face t cs (s.levelsOf base) ∧ (∀ l ∈ s.levelsOf base, s.kind l = .plain) ∧
    ∀ o ∈ base, face = o

variable {base : Option ObjectId} {c o : ObjectId} {kind : Kind}

namespace Under

variable {W : Stock} {s : Store} {n : Nat} {b : Blueprint} {t : List Moment}

theorem top (hb : b.base = none) : Under s n b none t :=
  ⟨[], ⟨0⟩, fun _ hc => .last hc hb, .nil, by simp [Store.levelsOf], by simp⟩

theorem ofBase {base : ObjectId} (hb : b.base = some base) (h : Built s n base o .plain t) :
    Under s n b (some o) t := by
  obtain ⟨cs, hlineage, hchain⟩ := h.chain
  refine ⟨cs, o, fun _ hc => .derived hc hb hlineage, hchain, ?_, fun _ => Option.some.inj⟩
  intro l hl
  rcases List.mem_cons.mp hl with rfl | hl
  · exact h.kind
  · exact h.plain l hl

variable (h : Under s n b base t)
include h

theorem hasLevel : ∀ l ∈ s.levelsOf base, s.HasObject l := by
  obtain ⟨cs, face, -, hchain, -⟩ := h
  exact hchain.has

theorem has : ∀ p ∈ base, s.HasObject p := by
  intro p hp
  cases hp
  exact h.hasLevel p (List.mem_cons_self ..)

theorem supports : ∀ p ∈ base, s.Supports p := by
  obtain ⟨cs, face, -, hchain, hplain, -⟩ := h
  intro p hp
  cases hp
  refine ⟨?_, by rw [hplain p (List.mem_cons_self ..)]; exact id⟩
  cases hchain with
  | cons hlevel _ => simp [Store.type, hlevel.type]

theorem worn : ∀ l ∈ s.levelsOf base, (s.object l).face = (s.levelsOf base).head? := by
  obtain ⟨cs, face, -, hchain, -, hface⟩ := h
  intro l hl
  cases base with
  | none => cases hl
  | some o =>
    rw [hchain.faces l hl, hface o rfl]
    rfl

end Under

/-- What lies below a new level is an instance of the superclass. -/
theorem Under.baseType {s : Store} {n : Nat} {b : Blueprint} {t : List Moment}
    (h : Under s n b base t) (hc : s.kind c = .ofClass b) :
    base.map s.type = b.base.map some := by
  obtain ⟨cs, face, hlineage, hchain, -⟩ := h
  have hcs : b.base = cs.head? := by
    cases hlineage c hc with
    | last hc' hb =>
      cases hc.symm.trans hc'
      exact hb
    | derived hc' hb hrest =>
      cases hc.symm.trans hc'
      rw [hb]
      cases hrest <;> rfl
  cases base with
  | none =>
    cases hchain
    rw [hcs]
    rfl
  | some o =>
    cases hchain with
    | cons hlevel _ =>
      rw [hcs, Option.map_some, show s.type o = _ from hlevel.type]
      rfl

/-- A level filled on top of a chain makes an instance of the class once it takes its face. -/
theorem built_of_filled {W : Stock} {s s' : Store} {n : Nat} {b : Blueprint} {t u : List Moment}
    (hw : s.Wellformed W) (hw' : s'.Wellformed W) (hunder : Under s n b base t)
    (hc : s.kind c = .ofClass b) (hn : n ≤ s.objects.size)
    (hgrows : (s.newObject base kind).2.Grows s') (hold : ∀ o : ObjectId, o.index < s.objects.size →
      s'.object o = (s.newObject base kind).2.object o)
    (hfilling : s'.Filling s.fresh b.entries) (ht : fieldSteps s.fresh t = [])
    (hu : LevelFilled s' u b s.fresh)
    (hu' : ∀ l : ObjectId, l.index < s.objects.size → fieldSteps l u = []) :
    Built (s'.settle s.fresh c) n c s.fresh kind (t ++ u) := by
  obtain ⟨cs, face, hlineage, hchain, hplain, -⟩ := hunder
  have hall := (s.newObject_grows base kind).trans hgrows
  have hwear := s'.wearFace_alike s.fresh
  have htype := Store.setType_alike (s'.wearFace s.fresh) s.fresh c
  have hsettle : s'.Grows (s'.settle s.fresh c) := hwear.grows.trans htype.grows
  have hself : (s.newObject base kind).2.HasObject s.fresh := by simp [Store.HasObject]
  have hself' : s'.HasObject s.fresh := hself.mono hgrows.sizes
  have hbelow : (s'.object s.fresh).below = s.levelsOf base := by
    rw [hgrows.below _ hself, Store.object_newObject_self]
    rfl
  have hkind : s'.kind s.fresh = kind := by
    rw [hgrows.kind _ hself, Store.kind, Store.object_newObject_self]
    rfl
  have hbelow' : ((s'.settle s.fresh c).object s.fresh).below =
      s.levelsOf base := by
    rw [hsettle.below _ hself', hbelow]
  -- What settling does to a level of the chain.
  have hlevel : ∀ l ∈ s.levelsOf base, l.index < s.objects.size ∧
      (s'.settle s.fresh c).object l =
        { s.object l with face := some s.fresh } := by
    intro l hl
    have hlt : l.index < s.objects.size := hchain.has l hl
    have hne : l ≠ s.fresh := by
      rintro rfl
      exact Nat.lt_irrefl _ hlt
    have hmem : l ∈ s'.levels s.fresh := by
      rw [Store.levels, hbelow]
      exact List.mem_cons_of_mem _ hl
    have hhas : l.index < s'.objects.size := Store.HasObject.mono hlt hall.sizes
    refine ⟨hlt, ?_⟩
    rw [Store.settle, Store.object_setType, if_neg (fun h => hne h.1), Store.object_wearFace,
      if_pos ⟨hmem, hhas⟩, hold l hlt, Store.object_newObject_of_has _ _ _ hlt]
  refine ⟨⟨c :: cs, (hlineage c hc).mono (hall.trans hsettle), ?_⟩, ?_, ?_⟩
  · rw [Store.levels, hbelow']
    refine .cons ⟨hself'.mono hsettle.sizes, hn, hbelow', ?_, ?_, b, ?_, ?_, ?_⟩ ?_
    · rw [Store.settle, Store.object_setType, if_pos]
      exact ⟨rfl, by rw [hwear.size]; exact hself'⟩
    · have hface : ((s'.wearFace s.fresh).object s.fresh).face =
          some s.fresh := by
        rw [Store.object_wearFace, if_pos ⟨List.mem_cons_self .., hself'⟩]
      rw [Store.settle, Store.object_setType]
      split <;> exact hface
    · exact (hall.trans hsettle).kind_of_ne hc (by simp)
    · intro p
      refine (hfilling.lists p).mono hw' hsettle ?_
      exact (htype.bindings _ p).trans (hwear.bindings _ p)
    · refine hu.mono hw' hsettle (List.suffix_append t u).isInfix ?_
      rw [fieldSteps_append, ht, List.nil_append]
    · refine hchain.carry hw (hall.trans hsettle) (Nat.le_refl _)
        (List.prefix_append t u).isInfix ?_ ?_ ?_ ?_
      · intro l hl
        rw [(hlevel l hl).2]
      · intro l hl _
        rw [(hlevel l hl).2]
      · intro l hl p
        rw [(hlevel l hl).2]
        cases p <;> rfl
      · intro l hl
        rw [fieldSteps_append, hu' l (hlevel l hl).1, List.append_nil]
  · rw [hsettle.kind _ hself', hkind]
  · intro l hl
    rw [hbelow'] at hl
    rw [(hall.trans hsettle).kind l (hchain.has l hl)]
    exact hplain l hl

namespace Eval

variable {W : Stock} {k : Inner} {n : Nat} {m : Machine} {b : Blueprint} {s : Store} {name : String}
  {code : Code} {t : TableId}

theorem bind_blueprint {β : Type} {R : β → List Moment → Store → Prop} {f : Blueprint → Routine β}
    (hf : ∀ b, m.store.kind c = .ofClass b → (f b).Goes W n m R) :
    (blueprint c >>= f).Goes W n m R := by
  refine Goes.assoc (Goes.bind_see ?_)
  cases hkind : m.store.kind c with
  | ofClass b => exact Goes.bind_reader rfl (moments_pure b m) (hf b hkind)
  | _ =>
    refine Goes.assoc (Goes.bind_see ?_)
    exact Goes.bind_failed rfl (moments_quiet _ m) (W.own (.notClass _) (by simp))

theorem makeBase_goes (hk : Good W k) (hm : Ready W n m) (hc : m.store.kind c = .ofClass b) :
    (makeBase k b).Goes W n m fun base t s => Under s m.store.objects.size b base t := by
  rw [makeBase]
  cases hbase : b.base with
  | none => exact Goes.pure (.top hbase)
  | some base =>
    obtain ⟨-, b', hb'⟩ := hm.sound.store.bases c b hc base hbase
    refine Goes.map hm (dispatch_class_goes hk hm hb') ?_
    rintro o t s ⟨-, hbuilt⟩
    exact .ofBase hbase hbuilt

section

variable (hk : Good W k)
include hk

variable (hm : Ready W n m)
include hm

theorem instantiate_goes (hkind : m.store.Payload W kind) :
    (instantiate k c kind).Goes W n m fun o t s => Built s m.store.objects.size c o kind t := by
  refine Goes.bind_touch hkind rfl (bind_blueprint fun b hc => ?_)
  have hcFits : m.store.HasObject c := Store.has_of_kind (by simp [hc])
  have hb : b.Fits W m.store := by
    have hfits := (hm.sound.store.objects c).kind
    rwa [show (m.store.object c).kind = .ofClass b from hc] at hfits
  refine Goes.bind hm ((makeBase_goes hk hm hc).unborn hm) ?_
  rintro base t m₁ hreached₁ ⟨hunder, hunborn⟩
  have hready₁ := hreached₁.ready hm
  have hc₁ := hreached₁.grows.kind_of_ne hc (by simp)
  have hnew : (newObject base kind).Goes W n m₁ fun o t s => o = m₁.store.fresh ∧ t = [] ∧
      s = (m₁.store.newObject base kind).2 :=
    Goes.of_move rfl (moments_quiet _ m₁)
      (.object hunder.has (hkind.fits.mono hreached₁.sizes) hkind.noClass hunder.supports) rfl
      ⟨by simp, rfl, rfl⟩
  refine Goes.bind hready₁ hnew ?_
  rintro o _ m₂ hreached₂ ⟨rfl, rfl, hstore₂⟩
  have hready₂ : Ready W m₁.store.objects.size m₂ := ⟨hreached₂.sound, hreached₂.sizes.objects⟩
  have hself : m₂.store.HasObject m₁.store.fresh := by simp [hstore₂, Store.HasObject]
  have hempty : m₂.store.Filling m₁.store.fresh fun _ => [] := by
    rw [hstore₂]
    exact .newObject m₁.store base kind
  have hb₂ := (hb.mono hreached₁.sizes).mono hreached₂.sizes
  have hfill := fillLevel_goes hk hready₂ hself (Nat.le_refl _) hb₂ hempty
  refine Goes.bind (hreached₂.ready hready₁) ((hfill.below hready₂ hready₁.bound).grown
    (hreached₂.ready hready₁)) ?_
  rintro _ u m₃ hreached₃ ⟨⟨⟨hfilling, hinit⟩, hold, hinitOld⟩, hgrows₃, hw₃⟩
  rw [hstore₂] at hold hgrows₃
  have hbuilt := built_of_filled (u := u) hready₁.sound.store.toWellformed hw₃ hunder hc₁
    hreached₁.sizes.objects hgrows₃ hold hfilling (hunborn _ (by simp [Store.HasObject])) hinit
    hinitOld
  have hself₃ := hself.mono hreached₃.sizes
  have hc₃ := hcFits.mono (hreached₁.sizes.trans (hreached₂.sizes.trans hreached₃.sizes))
  have hsettle : m₃.store.Grows (m₃.store.settle m₁.store.fresh c) :=
    (m₃.store.wearFace_alike _).grows.trans (Store.setType_alike _ _ c).grows
  have hnewLevels : ∀ l ∈ m₃.store.levels m₁.store.fresh,
      m.store.objects.size ≤ l.index := by
    intro l hl
    rw [← hsettle.levels hself₃] at hl
    exact hbuilt.new l hl
  have hlevels : ∀ l ∈ m₃.store.levels m₁.store.fresh,
      n ≤ l.index ∧ Store.NoClass (m₃.store.kind l) := by
    intro l hl
    refine ⟨Nat.le_trans hm.bound (hnewLevels l hl), ?_⟩
    rw [← hsettle.kind l (hw₃.has_level hself₃ hl)]
    exact hbuilt.noClass hkind.noClass l (by rwa [hsettle.levels hself₃])
  have hbelow : (m₃.store.object m₁.store.fresh).below = m₁.store.levelsOf base := by
    rw [hreached₃.grows.below _ hself, hstore₂, Store.object_newObject_self]
    rfl
  have hlevel : m₃.store.Level m₁.store.fresh b := by
    refine ⟨fun p => ⟨[], _, rfl, by simp, hfilling.lists p⟩, ?_⟩
    rw [← hunder.baseType hc₁, Store.base, hbelow]
    cases base with
    | none => rfl
    | some l =>
      have hlt : l.index < m₁.store.objects.size := hunder.has l rfl
      simp only [Store.levelsOf, Store.levels, List.head?_cons, Option.map_some, Store.type]
      rw [hold l hlt, Store.object_newObject_of_has _ _ _ hlt]
  have hmaking : m₃.store.Unsettled m₃.roots.root m₁.store.fresh := by
    refine ⟨hfilling.type, hfilling.face, ?_, ?_⟩
    · rw [Store.base, hbelow]
      intro l hl
      have hlt : l.index < m₁.store.objects.size := hunder.hasLevel l hl
      rw [hold l hlt, Store.object_newObject_of_has _ _ _ hlt]
      exact hunder.worn l hl
    · intro hroot
      have hnew := hnewLevels _ hroot
      rw [hreached₃.roots, hreached₂.roots, hreached₁.roots] at hnew
      exact Nat.lt_irrefl _ (Nat.lt_of_lt_of_le hm.sound.roots.root hnew)
  -- The last two changes of an object in the making are one move.
  refine Goes.of_move rfl
    ((silent_quiet _).bind (fun _ => (silent_quiet _).bind fun _ => silent_pure _) _)
    (.settle hself₃ (hreached₃.grows.kind_of_ne
      (hreached₂.grows.kind_of_ne hc₁ (by simp)) (by simp)) hlevels hmaking hlevel) rfl ?_
  rw [List.nil_append, List.append_nil, ← List.singleton_append]
  exact hbuilt.prepend (hw₃.settle hself₃ hc₃) (Nat.le_refl _) fun _ _ => rfl

theorem instanceOf_goes (name : String) (kind : Kind) (hkind : m.store.Payload W kind) :
    (instanceOf k name kind).Goes W n m fun o _ s =>
      s.HasObject o ∧ m.store.objects.size ≤ o.index ∧ s.kind o = kind := by
  refine Goes.bind hm (builtin_goes hk hm name) ?_
  intro c _ m₁ hreached _
  refine (instantiate_goes hk (hreached.ready hm) (hkind.mono hreached.sizes)).mono ?_
  intro o t s hbuilt
  exact ⟨hbuilt.has, Nat.le_trans hreached.sizes.objects (hbuilt.new o (List.mem_cons_self ..)),
    hbuilt.kind⟩

theorem integer_goes (i : Int64) : (integer k i).Goes W n m fun o _ s => s.HasObject o :=
  (instanceOf_goes hk hm _ (.integer i) ⟨trivial, by simp [Store.NoClass]⟩).mono fun _ _ _ h => h.1

theorem float_goes (x : Float) : (float k x).Goes W n m fun o _ s => s.HasObject o :=
  (instanceOf_goes hk hm _ (.float x) ⟨trivial, by simp [Store.NoClass]⟩).mono fun _ _ _ h => h.1

theorem string_goes (text : String) : (string k text).Goes W n m fun o _ s => s.HasObject o :=
  (instanceOf_goes hk hm _ (.string text) ⟨trivial, by simp [Store.NoClass]⟩).mono
    fun _ _ _ h => h.1

omit hk in
/-- A callable that is new takes itself as its call operator. -/
theorem answerCall_goes (ho : m.store.HasObject o) (hn : n ≤ o.index)
    (hkind : (m.store.kind o).Callable) : (answerCall o).Goes W n m fun _ _ _ => True := by
  refine (Goes.defineConst hm (ho.holds .operators) (by simp) ?_ ho ?_).mono fun _ _ _ _ => trivial
  · intro x p heq
    cases heq
    exact hn
  · rintro x p ⟨⟩
    exact Or.inr ⟨rfl, rfl, hkind⟩

/-- An instance that answers calls by itself. -/
theorem callable_goes (name : String) (kind : Kind) (hkind : m.store.Payload W kind)
    (hcallable : kind.Callable) :
    (do let o ← instanceOf k name kind; answerCall o; return o : Routine ObjectId).Goes W n m
      fun o _ s => s.HasObject o := by
  refine Goes.bind hm (instanceOf_goes hk hm name kind hkind) ?_
  rintro o _ m₁ hreached ⟨ho, hnew, rfl⟩
  refine Goes.bind (hreached.ready hm)
    (answerCall_goes (hreached.ready hm) ho (Nat.le_trans hm.bound hnew) hcallable) ?_
  intro _ _ m₂ hreached' _
  exact Goes.pure (ho.mono hreached'.sizes)

end

section Classes

theorem makeRooted_run (kind : Kind) (type : Roots → ObjectId) (m : Machine) :
    makeRooted kind type m = .done m.store.fresh
      { m with store := (m.store.rooted m.roots.root (type m.roots) kind).2 } := rfl

theorem accepts_call : NameRule.operator.accepts "()" = true := by decide

theorem accepts_name : NameRule.symbol.accepts "name" = true := by decide

theorem accepts_new : NameRule.symbol.accepts "new" = true := by decide

theorem makeMethod_run (owner : ObjectId) (code : Code) (m : Machine) :
    makeMethod owner code m = .done m.store.fresh
      { m with store := (m.store.addMethod m.roots owner code).2 } := by
  have hanswer : answerCall m.store.fresh { m with
      store := (m.store.rooted m.roots.root m.roots.method (.method owner code)).2 } =
      .done () { m with store := (m.store.addMethod m.roots owner code).2 } :=
    defineConst_run (Store.refusal?_operator accepts_call (m.store.free_rooted _ _ _ _ _)) m
  rw [makeMethod, bind_run_done (makeRooted_run _ _ m), bind_run_done hanswer]
  rfl

theorem defineName_run (ho : s.HasObject o) (hfree : s.local? (.part o .members) "name" = none)
    (m : Machine) :
    defineName o { m with store := s } = .done () { m with store := s.addName m.roots o } := by
  have hne : o ≠ s.fresh := by
    rintro rfl
    exact Nat.lt_irrefl _ ho
  have hfree' : ((s.addMethod m.roots o .nameGetter).2.newCell
      (.computed s.fresh none)).2.local? (.part o .members) "name" = none := by
    rw [Store.local?, Store.bindings_newCell, Store.bindings_part, Store.object_addMethod,
      if_neg hne]
    exact hfree
  rw [defineName, bind_run_done (makeMethod_run o _ _), bind_run_done (newCell_run _ _),
    define_run (Store.refusal?_member accepts_name hfree') m, Store.addName_eq,
    Store.addMethod_cells_size]

/-- A class is made in one go: none of the names it gets is taken. -/
theorem makeClass_run (b : Blueprint) (m : Machine) :
    makeClass b m = .done m.store.fresh
      (Machine.note { m with store := (m.store.addClass m.roots b).2 } (.classCreated b.name)) := by
  have hconstruct : makeMethod m.store.fresh .constructor
      { m with store := (m.store.rooted m.roots.root m.roots.class_ (.ofClass b)).2 } =
      .done ⟨m.store.objects.size + 1⟩ { m with store := m.store.classParts m.roots b } := by
    rw [makeMethod_run, Store.fresh, Store.rooted_objects_size]
    rfl
  have hanswers : defineConst (.part m.store.fresh .operators) "()"
      ⟨m.store.objects.size + 1⟩ { m with store := m.store.classParts m.roots b } =
      .done () { m with store := m.store.classAnswering m.roots b } :=
    defineConst_run (Store.refusal?_operator accepts_call (m.store.classParts_free m.roots b _ _)) m
  have hmakes : defineConst (.part m.store.fresh .members) "new"
      ⟨m.store.objects.size + 1⟩ { m with store := m.store.classAnswering m.roots b } =
      .done () { m with store := m.store.classMaking m.roots b } :=
    defineConst_run (Store.refusal?_member accepts_new (m.store.classAnswering_free m.roots b _)) m
  have hnames : defineName m.store.fresh
      { m with store := m.store.classMaking m.roots b } =
      .done () { m with store := (m.store.addClass m.roots b).2 } := by
    rw [Store.addClass_snd]
    exact defineName_run (m.store.classMaking_has m.roots b) (m.store.classMaking_free m.roots b) m
  rw [makeClass, bind_run_done (makeRooted_run _ _ m), bind_run_done hconstruct,
    bind_run_done hanswers, bind_run_done hmakes, bind_run_done hnames]
  rfl

theorem makeClass_silent (b : Blueprint) : (makeClass b).Silent := by
  have hname (o : ObjectId) : (defineName o).Silent :=
    (makeMethod_silent o _).bind fun _ => (silent_quiet _).bind fun _ => silent_quiet _
  exact (makeRooted_silent _ _).bind fun c => (makeMethod_silent c _).bind fun f =>
    (silent_defineConst _ _ _).bind fun _ => (silent_defineConst _ _ _).bind fun _ =>
      (hname c).bind fun _ => (silent_quiet _).bind fun _ => silent_pure c

theorem makeClass_goes (hb : b.Fits W m.store)
    (hbase : ∀ base ∈ b.base, ∃ b', m.store.kind base = .ofClass b') (hsome : b.base ≠ none) :
    (makeClass b).Goes W n m fun c _ s => s.HasObject c := by
  refine Goes.of_done (makeClass_run b m) ?_ ?_ ?_
  · rw [makeClass_silent b m]
    exact .move (.newClass hb hbase hsome) (.single (.note _))
  · simp only [Machine.note]
    exact .refl _ _
  · simp only [Machine.note, Store.HasObject, Store.addClass_objects_size]
    exact Nat.lt_add_of_pos_right (by decide)

end Classes

end Eval

end ObjectLang
