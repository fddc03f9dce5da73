import ObjectLang.Proofs.Eval.Entering

/-!
Filling a level with what a blueprint gives.
Each step adds one entry to one table of the level and leaves its other tables alone, whatever code
an initialiser runs in between, since that code cannot touch an object that was there before it.
-/
namespace ObjectLang

open Machine Routine

namespace Store

/-- One table of the object gained one entry, and nothing else of the object changed. -/
def Gains (s s' : Store) (o : ObjectId) (p : Part) (e : Entry) : Prop :=
  ∃ c, s'.object o = (s.object o).bind p e.name c ∧ e.Bound s' o c

/-- A level in the making, whose tables bind the given entries. -/
structure Filling (s : Store) (o : ObjectId) (es : Part → List Entry) : Prop where
  lists : ∀ p, s.Lists o p (es p)
  type : s.type o = none
  face : (s.object o).face = none

end Store

def addEntries (es : Part → List Entry) (p : Part) (more : List Entry) : Part → List Entry :=
  fun q => if q = p then es q ++ more else es q

namespace Store

variable {W : Stock} {s s' : Store} {o : ObjectId} {es : Part → List Entry} {p : Part} {e : Entry}

theorem Filling.gain (h : s.Filling o es) (hw : s.Wellformed W) (hg : s.Grows s')
    (hgain : s.Gains s' o p e) : s'.Filling o (addEntries es p [e]) := by
  obtain ⟨c, hobject, hbound⟩ := hgain
  refine ⟨fun q => ?_, ?_, ?_⟩
  case refine_2 =>
    rw [Store.type, hobject, object_bind_type]
    exact h.type
  case refine_3 =>
    rw [hobject, object_bind_face]
    exact h.face
  have hbindings := object_bind_bindings e.name c (s.object o) p q
  rw [← hobject] at hbindings
  by_cases hq : q = p
  · subst hq
    rw [if_pos rfl] at hbindings
    rw [addEntries, if_pos rfl]
    exact (h.lists q).snoc hw hg hbindings hbound
  · rw [if_neg hq] at hbindings
    rw [addEntries, if_neg hq]
    exact (h.lists q).mono hw hg hbindings

/-- A new object is empty and in the making. -/
theorem Filling.newObject (s : Store) (base : Option ObjectId) (kind : Kind) :
    (s.newObject base kind).2.Filling s.fresh fun _ => [] := by
  refine ⟨fun p => ?_, ?_, ?_⟩
  · rw [Lists, bindings_part, object_newObject_self]
    cases p <;> exact .nil
  · rw [Store.type, object_newObject_self]
    rfl
  · rw [object_newObject_self]
    rfl

/-- The names that a table binds are those of its entries. -/
theorem Lists.names {l : ObjectId} {es : List Entry} (h : s.Lists l p es) :
    (s.bindings (.part l p)).reverse.map (·.1) = es.map Entry.name := by
  rw [Lists] at h
  generalize (s.bindings (.part l p)).reverse = bs at h
  induction h with
  | nil => rfl
  | cons hb _ ih => rw [List.map_cons, List.map_cons, hb.1, ih]

end Store

theorem addEntries_nil (es : Part → List Entry) (p : Part) : addEntries es p [] = es := by
  funext q
  simp [addEntries]

theorem addEntries_append (es : Part → List Entry) (p : Part) (more last : List Entry) :
    addEntries (addEntries es p more) p last = addEntries es p (more ++ last) := by
  funext q
  by_cases hq : q = p <;> simp [addEntries, hq]

namespace Eval

variable {W : Stock} {k : Inner} {n : Nat} {m : Machine} {owner : ObjectId} {b : Blueprint}
  {code : Code} {name : String} {entry : FieldPlan → Entry} {cell : ObjectId → Cell}
  {home : Option TableId} {p : PropertyPlan} {a : Activation} {roots : Roots} {f : FieldPlan}
  {c : CellId} {s : Store}

theorem makeRooted_silent (kind : Kind) (type : Roots → ObjectId) :
    (makeRooted kind type).Silent :=
  (silent_quiet _).bind fun _ => (silent_quiet _).bind fun _ => (silent_quiet _).bind fun _ =>
    (silent_quiet _).bind fun _ => silent_pure _

theorem makeMethod_silent (o : ObjectId) (code : Code) : (makeMethod o code).Silent :=
  (makeRooted_silent _ _).bind fun _ => (silent_defineConst _ _ _).bind fun _ => silent_pure _

theorem makeRooted_goes (kind : Kind) {type : Roots → ObjectId}
    (htype : m.store.HasObject (type m.roots)) (hkind : kind.Fits W m.store)
    (hclass : Store.NoClass kind) :
    (makeRooted kind type).Goes W n m fun o t s => t = [] ∧ o = m.store.fresh ∧
      s = (m.store.rooted m.roots.root (type m.roots) kind).2 :=
  Goes.of_move rfl (makeRooted_silent kind type m) (.rooted htype hkind hclass) rfl ⟨rfl, rfl, rfl⟩

theorem makeMethod_goes (hm : Ready W n m) (howner : m.store.HasObject owner)
    (hcode : code.Fits W m.store) :
    (makeMethod owner code).Goes W n m fun o t s => t = [] ∧ o = m.store.fresh ∧
      s = (m.store.addMethod m.roots owner code).2 := by
  refine Goes.bind hm (makeRooted_goes _ hm.sound.roots.method ⟨howner, hcode⟩ (by
    simp [Store.NoClass])) ?_
  rintro o _ m' hreached ⟨rfl, rfl, hstore⟩
  have hself : m'.store.HasObject m.store.fresh := by simp [hstore, Store.HasObject]
  refine Goes.bind (hreached.ready hm)
    (Goes.defineConst (hreached.ready hm) (hself.holds .operators) (by simp) ?_ hself ?_) ?_
  · intro o p heq
    cases heq
    exact hm.bound
  · rintro o p ⟨⟩
    refine Or.inr ⟨rfl, rfl, ?_⟩
    rw [hstore, Store.kind, Store.object_rooted, if_pos rfl]
    trivial
  · rintro _ _ m'' - ⟨rfl, -, hstore'⟩
    refine Goes.pure ⟨rfl, rfl, ?_⟩
    rw [hstore', hstore]
    rfl

/-- Making a method leaves all other objects alone. -/
theorem makeMethod_keeps {o : ObjectId} (ho : s.HasObject o) :
    (s.addMethod roots owner code).2.object o = s.object o := by
  rw [Store.object_addMethod, if_neg]
  rintro rfl
  exact Nat.lt_irrefl _ ho

theorem methodOf_addMethod :
    (s.addMethod roots owner code).2.MethodOf owner code s.fresh := by
  rw [Store.MethodOf, Store.kind, Store.object_addMethod, if_pos rfl]
  rfl

theorem defineMethod_goes (hm : Ready W n m) {o : ObjectId} {p : Part} (ho : m.store.HasObject o)
    (hn : n ≤ o.index) (hp : p ≠ .fields) (hcode : code.Fits W m.store)
    (htype : m.store.type o = none) :
    (defineMethod o p code).Goes W n m fun _ t s =>
      m.store.Gains s o p (.method code) ∧ fieldSteps o t = [] := by
  refine Goes.bind hm (makeMethod_goes hm ho hcode) ?_
  rintro f _ m' hreached ⟨rfl, rfl, hstore⟩
  have ho' := ho.mono hreached.sizes
  have hf : m'.store.HasObject m.store.fresh := by simp [hstore, Store.HasObject]
  refine (Goes.defineConst (hreached.ready hm) (ho'.holds p) (by simp [hp]) ?_ hf ?_).mono ?_
  · intro x q heq
    cases heq
    exact hn
  · rintro x q ⟨⟩
    rw [hstore, Store.type, makeMethod_keeps ho]
    exact Or.inl htype
  · rintro _ _ s ⟨rfl, hrefusal, rfl⟩
    have hgrows := m'.store.addConst_grows (.part o p) code.name m.store.fresh
      (ho'.holds p) (Store.free_of_refusal? hrefusal)
    refine ⟨⟨⟨m'.store.cells.size⟩, ?_, m.store.fresh, ?_, ?_⟩, rfl⟩
    · rw [Store.object_addConst_self _ _ _ ho', hstore, makeMethod_keeps ho]
      rfl
    · rw [Store.cell_addConst, if_pos rfl]
    · refine Store.MethodOf.mono ?_ hgrows
      rw [hstore]
      exact methodOf_addMethod

def PropertyMade (m : Machine) (o : ObjectId) (p : PropertyPlan) (c : CellId) (t : List Moment)
    (s : Store) : Prop :=
  s.Shareable c ∧ s.object o = m.store.object o ∧ (Entry.property p).Bound s o c ∧
    fieldSteps o t = []

def MaybeMade (s : Store) (o : ObjectId) : Option Code → Option ObjectId → Prop
  | none, none => True
  | some code, some f => s.MethodOf o code f
  | _, _ => False

/-- The getter comes after the setter, and the cell after both. -/
theorem accessorCell_goes (hm : Ready W n m) {o : ObjectId} {getter : Code} {setter : Option Code}
    (ho : m.store.HasObject o) (hgetter : getter.Fits W m.store)
    (hsetter : ∀ c ∈ setter, Code.Fits W m.store c) :
    (propertyCell k o ⟨name, some getter, setter⟩).Goes W n m
      (PropertyMade m o ⟨name, some getter, setter⟩) := by
  have hmaybe : (maybeMethod o setter).Goes W n m fun f t s => t = [] ∧
      s.object o = m.store.object o ∧ (∀ x ∈ f, s.HasObject x) ∧ MaybeMade s o setter f := by
    cases setter with
    | none => exact Goes.pure ⟨rfl, rfl, by simp, trivial⟩
    | some code =>
      refine Goes.map hm (makeMethod_goes hm ho (hsetter code rfl)) ?_
      rintro f t s ⟨rfl, rfl, rfl⟩
      exact ⟨rfl, makeMethod_keeps ho, by simp [Store.HasObject], methodOf_addMethod⟩
  refine Goes.bind hm hmaybe ?_
  rintro f _ m₁ hreached ⟨rfl, hobject, hf, hsort⟩
  have hready := hreached.ready hm
  have ho₁ := ho.mono hreached.sizes
  refine Goes.bind hready (makeMethod_goes hready ho₁ (hgetter.mono hreached.sizes)) ?_
  rintro g _ m₂ hreached' ⟨rfl, rfl, hstore⟩
  have hfits : (Cell.computed m₁.store.fresh f).Fits m₂.store :=
    ⟨by simp [hstore, Store.HasObject], fun x hx => (hf x hx).mono hreached'.sizes⟩
  refine (Goes.newCell hfits (by simp)).mono ?_
  rintro c _ s ⟨rfl, rfl, rfl⟩
  have hgrows := m₂.store.newCell_grows (.computed m₁.store.fresh f)
  have hkeep : m₂.store.object o = m.store.object o := by
    rw [hstore, makeMethod_keeps ho₁, hobject]
  have hmade : m₂.store.MethodOf o getter m₁.store.fresh := by
    rw [hstore]
    exact methodOf_addMethod
  refine ⟨Store.shareable_newCell hreached'.sound.store.toWellformed (by simp), hkeep, ?_, rfl⟩
  cases setter with
  | none =>
    cases f with
    | none => exact ⟨_, Store.cell_newCell_self _ _, hmade.mono hgrows⟩
    | some x => exact hsort.elim
  | some code =>
    cases f with
    | none => exact hsort.elim
    | some x =>
      exact ⟨_, x, Store.cell_newCell_self _ _, hmade.mono hgrows,
        (Store.MethodOf.mono hsort hreached'.grows).mono hgrows⟩

theorem newActivation_goes (hm : Ready W n m) (name : String) (howner : m.store.HasObject owner)
    (hhome : ∀ t ∈ home, m.store.HasTable t) :
    (newActivation owner name home).Goes W n m fun a _ s => a.Fits s ∧ a.owner = owner := by
  refine Goes.bind hm Goes.newTable ?_
  rintro locals _ m₁ hreached ⟨rfl, hlocals⟩
  refine Goes.bind_read ?_
  have hbuiltins := hreached.sound.builtins
  have howner₁ := howner.mono hreached.sizes
  cases home with
  | none =>
    refine Goes.pure ⟨⟨howner₁, ?_, hlocals⟩, rfl⟩
    simp only [List.mem_cons, List.not_mem_nil, or_false]
    rintro t (rfl | rfl)
    · exact hlocals
    · exact hbuiltins
  | some home =>
    have hhome₁ := (hhome home rfl).mono hreached.sizes
    refine Goes.pure ⟨⟨howner₁, ?_, hhome₁⟩, rfl⟩
    simp only [List.mem_cons, List.not_mem_nil, or_false]
    rintro t (rfl | rfl | rfl)
    · exact hlocals
    · exact hhome₁
    · exact hbuiltins

theorem defineLocal_goes (ha : a.Fits m.store) (hc : m.store.Common c) :
    (defineLocal a name c).Goes W n m fun _ _ _ => True := by
  rw [defineLocal]
  cases hscopes : a.scopes with
  | nil => exact Goes.fail (W.own _ (by simp))
  | cons t rest =>
    exact (Goes.defineFree (ha.scopes t (by simp [hscopes])) hc).mono fun _ _ _ _ => trivial

/-- A new constant in the innermost scope of an activation. -/
theorem defineLocalConst_goes (hm : Ready W n m) (name : String) {v : ObjectId}
    (ha : a.Fits m.store) (hv : m.store.HasObject v) (t : Task) :
    (newCell (.const v) >>= fun c => (defineLocal a name c).doing t).Goes W n m
      fun _ _ _ => True := by
  refine Goes.bind hm (Goes.newCell hv (by simp)) ?_
  rintro c _ m₁ hreached ⟨rfl, hstore, rfl⟩
  refine (defineLocal_goes (ha.mono hreached.sizes) ?_).doing (bare_defineLocal _ _ _) t
  rw [hstore]
  exact Store.common_newCell hm.sound.store.toWellformed (by simp) trivial

theorem firstValue_of_done {v : ObjectId} {m' : Machine} (hk : Good W k) (hm : m.Sound W)
    (o : ObjectId) (hrun : fieldValue k b o f m = .done v m') :
    FirstValue b o f m ((fieldValue k b o f).moments m) v := by
  obtain ⟨d, rfl⟩ := hk.depth
  obtain ⟨c, w, hc, hw⟩ := hm.nothing
  have hnothing : (nothing (.ofDepth d)).Finds m w := builtin_finds hc hw _
  rw [fieldValue] at hrun ⊢
  cases hvalue : f.value with
  | none =>
    simp only [hvalue] at hrun ⊢
    cases hnothing.run.symm.trans hrun
    exact .nothing hvalue hc hw hnothing.still
  | some e =>
    simp only [hvalue] at hrun ⊢
    obtain ⟨a, m₁, hreaches, hretains, howner, -⟩ :=
      ownedActivation_run (superOf_finds hnothing o) o b.home
    have hall := (hreaches (b.name ++ "." ++ f.name)).bind_pure fun a =>
      withActivation a ((Inner.ofDepth d).evaluate e)
    obtain ⟨t, ht, hstill⟩ := hall.moments
    obtain ⟨m₂, hdone, -⟩ := done_of_ensuring (hall.run.symm.trans hrun)
    rw [ht]
    refine .evaluated (a := a.renamed (b.name ++ "." ++ f.name)) hvalue hstill ?_ howner rfl
      ⟨d, m₂, hdone, rfl⟩
    exact congrArg (a.renamed _ :: ·) hretains.stack

/-- Binding a field and the deed of filling it are one. -/
theorem fillField_goes {o : ObjectId} (ho : m.store.HasObject o) (hn : n ≤ o.index)
    (hc : m.store.HasCell c) (hunused : m.store.Unused c) (htype : m.store.type o = none)
    (hstores : (m.store.cell c).Stores) :
    (touch (.fills o name c) >>= fun _ => define (.part o .fields) name c).Goes W n m fun _ t s =>
      t = [⟨.fills o name c, m⟩] ∧ m.store.refusal? (.part o .fields) name = none ∧
        s = m.store.bind (.part o .fields) name c := by
  have hhonest : Moment.Honest W n ⟨.fills o name c, m⟩ :=
    ⟨hn, ho, hc, hunused, htype, hstores⟩
  cases hrefusal : m.store.refusal? (.part o .fields) name with
  | none =>
    have hafter : Moment.after ⟨.fills o name c, m⟩ =
        { m with store := m.store.bind (.part o .fields) name c } := by
      simp [Moment.after, hrefusal]
    have hrun : (touch (.fills o name c) >>= fun _ => define (.part o .fields) name c) m =
        .done () (Moment.after ⟨.fills o name c, m⟩) := by
      simp [hafter, bind_run, touch, define, quiet, hrefusal]
    have htrace : (touch (.fills o name c) >>= fun _ => define (.part o .fields) name c).moments m =
        [⟨.fills o name c, m⟩] := by
      rw [moments_bind_done rfl, moments_touch, define, moments_quiet, List.append_nil]
    refine Goes.of_done hrun ?_ ?_ ?_
    · rw [htrace]
      exact Path.moment hhonest
    · rw [hafter]
      exact .refl _ _
    · rw [htrace, hafter]
      exact ⟨rfl, rfl, rfl⟩
  | some g =>
    refine Goes.bind_touch hhonest (by simp [Moment.after, hrefusal]) ?_
    refine Goes.of_failed ?_ (moments_quiet _ m) (W.own g (Store.refusal?_own hrefusal))
    simp [define, quiet, hrefusal]

/-- Constant fields hold their value for ever, and variable fields as long as nothing is assigned.
-/
inductive FieldSort : (ObjectId → Cell) → (FieldPlan → Entry) → Prop where
  | val : FieldSort .const .val
  | var : FieldSort .var .var

variable {o : ObjectId} {es : Part → List Entry}

/-- A run over a list of plans whose steps add one entry each and initialise no field. -/
theorem entries_goes {γ : Type} {g : γ → Routine Unit} {p : Part} {entry : γ → Entry}
    (hm : Ready W n m) (l : List γ) (hes : m.store.Filling o es)
    (hstep : ∀ a ∈ l, ∀ m', Reached W n m m' → m'.store.type o = none →
      (g a).Goes W n m' fun _ t s => m'.store.Gains s o p (entry a) ∧ fieldSteps o t = []) :
    (l.forM g).Goes W n m fun _ t s =>
      s.Filling o (addEntries es p (l.map entry)) ∧ fieldSteps o t = [] := by
  refine Goes.forM hm l (fun before t s => s.Filling o (addEntries es p (before.map entry)) ∧
    fieldSteps o t = []) ?_ ?_
  · rw [List.map_nil, addEntries_nil]
    exact ⟨hes, rfl⟩
  · rintro before a after rfl t m' hreached ⟨hfilling, hinit⟩
    refine ((hstep a (by simp) m' hreached hfilling.type).grown (hreached.ready hm)).mono ?_
    rintro _ u s ⟨⟨hgain, hinit'⟩, hgrows, -⟩
    have hmore := hfilling.gain hreached.sound.store.toWellformed hgrows hgain
    rw [addEntries_append] at hmore
    rw [List.map_append, fieldSteps_append, hinit, hinit']
    exact ⟨hmore, rfl⟩

variable (hk : Good W k) (hm : Ready W n m)

include hk hm

theorem propertyCell_goes (ho : m.store.HasObject o) (hp : p.Fits W m.store) :
    (propertyCell k o p).Goes W n m (PropertyMade m o p) := by
  obtain ⟨name, getter, setter⟩ := p
  cases getter with
  | some getter => exact accessorCell_goes hm ho (hp.getter getter rfl) hp.setter
  | none =>
    cases setter with
    | some setter => exact Goes.fail (W.own _ (by simp))
    | none =>
      refine Goes.bind hm ((nothing_goes hk ⟨hm.sound, Nat.le_refl _⟩).old hm) ?_
      rintro v t m₁ hreached ⟨hv, hold, hinit⟩
      refine (Goes.newCell (c := .var v) hv (by simp)).mono ?_
      rintro c _ s ⟨rfl, rfl, rfl⟩
      have hw := hreached.sound.store.toWellformed
      refine ⟨Store.shareable_newCell hw (by simp), hold o ho, ?_, ?_⟩
      · exact ⟨v, Store.cell_newCell_self _ _⟩
      · rw [List.append_nil]
        exact hinit o ho

theorem defineProperty_goes (ho : m.store.HasObject o) (hn : n ≤ o.index)
    (hp : p.Fits W m.store) (htype : m.store.type o = none) :
    (defineProperty k o p).Goes W n m fun _ t s =>
      m.store.Gains s o .members (.property p) ∧ fieldSteps o t = [] := by
  refine Goes.bind hm (propertyCell_goes hk hm ho hp) ?_
  rintro c t m₁ hreached ⟨hshare, hobject, hbound, hinit⟩
  have ho₁ := ho.mono hreached.sizes
  refine (Goes.define (ho₁.holds .members) (by simp) ?_ hshare ?_ nofun).mono ?_
  · intro x q heq
    cases heq
    exact hn
  · rintro x q ⟨⟩
    rw [Store.type, hobject]
    exact Or.inl htype
  · rintro _ _ s ⟨rfl, hrefusal, rfl⟩
    have hgrows := m₁.store.bind_grows c (ho₁.holds .members) (Store.free_of_refusal? hrefusal)
    refine ⟨⟨c, ?_, hbound.mono hgrows hshare.1⟩, ?_⟩
    · rw [← hobject]
      exact Store.object_modifyObject_self _ o _ ho₁
    · rw [List.append_nil]
      exact hinit

theorem superOf_goes (o : ObjectId) : (superOf k o).Delivers W n m := by
  refine Goes.bind_see ?_
  cases hbase : m.store.base o with
  | some b =>
    exact Goes.pure ((hm.sound.store.objects o).below b (List.mem_of_mem_head? hbase))
  | none => exact nothing_goes hk hm

theorem ownedActivation_goes {this : ObjectId} (name : String) (howner : m.store.HasObject owner)
    (hthis : m.store.HasObject this) (hhome : ∀ t ∈ home, m.store.HasTable t) :
    (ownedActivation k owner this name home).Goes W n m fun a _ s =>
      a.Fits s ∧ a.owner = owner := by
  refine Goes.bind hm (superOf_goes hk hm owner) ?_
  intro base _ m₁ hreached₁ hbase
  have hready₁ := hreached₁.ready hm
  refine Goes.bind hready₁ (newActivation_goes hready₁ name (howner.mono hreached₁.sizes)
    fun t ht => (hhome t ht).mono hreached₁.sizes) ?_
  rintro a _ m₂ hreached₂ ⟨ha, rfl⟩
  have hready₂ := hreached₂.ready hready₁
  have hthis₂ := (hthis.mono hreached₁.sizes).mono hreached₂.sizes
  refine Goes.bind_see (Goes.unassoc (Goes.bind hready₂ (defineLocalConst_goes hready₂ "self" ha
    (hready₂.sound.store.has_face hthis₂) .bindSelf) ?_))
  rintro _ _ m₃ hreached₃ -
  have hready₃ := hreached₃.ready hready₂
  have hbase₃ := (hbase.mono hreached₂.sizes).mono hreached₃.sizes
  refine Goes.unassoc (Goes.bind hready₃ (defineLocalConst_goes hready₃ "super"
    (ha.mono hreached₃.sizes) hbase₃ .bindSelf) ?_)
  rintro _ _ m₄ hreached₄ -
  exact Goes.pure ⟨(ha.mono hreached₃.sizes).mono hreached₄.sizes, rfl⟩

theorem fieldValue_goes (ho : m.store.HasObject o)
    (hhome : ∀ t ∈ b.home, m.store.HasTable t) (hf : ∀ e ∈ f.value, W.expr e) :
    (fieldValue k b o f).Delivers W n m := by
  rw [fieldValue]
  cases hvalue : f.value with
  | none => exact nothing_goes hk hm
  | some e =>
    refine Goes.bind hm (ownedActivation_goes hk hm _ ho ho hhome) ?_
    rintro a _ m₁ hreached ⟨ha, -⟩
    exact Goes.withActivation ha (hk.evaluate ((hreached.ready hm).push ha) (hf e hvalue))

/-- The initialiser runs on a level that has the fields before it, and then the field is there. -/
theorem defineField_goes (hsort : FieldSort cell entry) (ho : m.store.HasObject o)
    (hn : n ≤ o.index) (hhome : ∀ t ∈ b.home, m.store.HasTable t) (hf : ∀ e ∈ f.value, W.expr e)
    (htype : m.store.type o = none) :
    (defineField k b o cell f).Goes W n m fun _ t s => m.store.Gains s o .fields (entry f) ∧
      fieldSteps o t = [.begins f (m.store.fieldNames o), .ends f.name (m.store.fieldNames o)] ∧
        FieldFilled s t b o cell f := by
  refine Goes.bind_touch ⟨hn, ho⟩ rfl ?_
  have hfirst := (fieldValue_goes hk ⟨hm.sound, Nat.le_refl _⟩ ho hhome hf).ran
    (P := fun v t => FirstValue b o f m t v) fun _ _ => firstValue_of_done hk hm.sound o
  refine Goes.bind hm (hfirst.old hm) ?_
  rintro v t m₁ hreached ⟨⟨hv, hvalue⟩, hold, hinit⟩
  have hready := hreached.ready hm
  have hfits : (cell v).Fits m₁.store := by cases hsort <;> exact hv
  have hview : ∀ x, cell v ≠ .view x := by cases hsort <;> simp
  refine Goes.bind hready (Goes.newCell hfits fun x hx => absurd hx (hview x)) ?_
  rintro c _ m₂ hreached' ⟨rfl, hstore, rfl⟩
  have hunused : m₂.store.Unused ⟨m₁.store.cells.size⟩ := by
    rw [hstore]
    exact hready.sound.store.unused_new _ (hview _)
  have hc : m₂.store.HasCell ⟨m₁.store.cells.size⟩ := by simp [hstore, Store.HasCell]
  have ho₂ := (ho.mono hreached.sizes).mono hreached'.sizes
  have hobject : m₂.store.object o = m.store.object o := by
    rw [hstore]
    exact hold o ho
  have htype₂ : m₂.store.type o = none := by
    rw [Store.type, hobject]
    exact htype
  have hstores : (m₂.store.cell ⟨m₁.store.cells.size⟩).Stores := by
    rw [hstore, Store.cell_newCell_self]
    cases hsort <;> trivial
  refine (fillField_goes ho₂ hn hc hunused htype₂ hstores).mono ?_
  rintro _ _ s ⟨rfl, hrefusal, rfl⟩
  have hcell : m₂.store.cell ⟨m₁.store.cells.size⟩ = cell v := by
    rw [hstore, Store.cell_newCell_self]
  refine ⟨⟨⟨m₁.store.cells.size⟩, ?_, ?_⟩, ?_, ?_⟩
  · have hname : (entry f).name = f.name := by cases hsort <;> rfl
    rw [hname, ← hobject]
    exact Store.object_modifyObject_self _ o _ ho₂
  · cases hsort <;> exact ⟨v, hcell⟩
  · have htouch : fieldSteps o [⟨.initialises o f, m⟩] = [.begins f (m.store.fieldNames o)] := by
      simp [fieldSteps, Moment.fieldStep?]
    have hfill : fieldSteps o [⟨.fills o f.name ⟨m₁.store.cells.size⟩, m₂⟩] =
        [.ends f.name (m.store.fieldNames o)] := by
      simp [fieldSteps, Moment.fieldStep?, Store.fieldNames, Store.bindings_part, hobject]
    rw [← List.singleton_append, fieldSteps_append, fieldSteps_append,
      fieldSteps_append, hinit o ho, hfill, htouch]
    rfl
  · refine ⟨_, ⟨m₁.store.cells.size⟩, v, List.infix_rfl, ⟨m, t, m₂, rfl, hvalue, hcell⟩, ?_, ?_⟩
    · rw [Store.local?_bind _ (ho₂.holds .fields), if_pos ⟨rfl, rfl⟩]
    · exact fun hconst => hcell.trans hconst

/-- Fields are initialised in order, each on a level that has exactly those before it. -/
theorem fields_goes (hsort : FieldSort cell entry) (l : List FieldPlan) (ho : m.store.HasObject o)
    (hn : n ≤ o.index) (hhome : ∀ t ∈ b.home, m.store.HasTable t)
    (hl : ∀ f ∈ l, ∀ e ∈ f.value, W.expr e) (hes : m.store.Filling o es) :
    (l.forM (defineField k b o cell)).Goes W n m fun _ t s =>
      s.Filling o (addEntries es .fields (l.map entry)) ∧
        fieldSteps o t = eachAfter ((es .fields).map Entry.name) l ∧
        ∀ f ∈ l, FieldFilled s t b o cell f := by
  refine Goes.forM hm l (fun before t s =>
    s.Filling o (addEntries es .fields (before.map entry)) ∧
      fieldSteps o t = eachAfter ((es .fields).map Entry.name) before ∧
      ∀ f ∈ before, FieldFilled s t b o cell f) ?_ ?_
  · rw [List.map_nil, addEntries_nil]
    exact ⟨hes, rfl, by simp⟩
  · rintro before f after rfl t m' hreached ⟨hfilling, hinit, hfilled⟩
    have hfield := defineField_goes hk (hreached.ready hm) hsort (ho.mono hreached.sizes) hn
      (fun t ht => (hhome t ht).mono hreached.sizes) (hl f (by simp)) hfilling.type
    refine (hfield.grown (hreached.ready hm)).mono ?_
    rintro _ u s ⟨⟨hgain, hinit', hlast⟩, hgrows, hw⟩
    have hmore := hfilling.gain hreached.sound.store.toWellformed hgrows hgain
    rw [addEntries_append] at hmore
    have hnames : before.map (Entry.name ∘ entry) = before.map (·.name) := by
      cases hsort <;> rfl
    rw [Store.fieldNames, (hfilling.lists .fields).names, addEntries, if_pos rfl, List.map_append,
      List.map_map, hnames] at hinit'
    rw [List.map_append, fieldSteps_append, hinit, hinit', eachAfter_append]
    refine ⟨hmore, rfl, fun g hg => ?_⟩
    rcases List.mem_append.mp hg with hg | hg
    · exact (hfilled g hg).mono hreached.sound.store.toWellformed hgrows
        (List.prefix_append t u).isInfix
    · obtain rfl := List.mem_singleton.mp hg
      exact hlast.mono hw (.refl s) (List.suffix_append t u).isInfix

/-- A level that is still empty gets exactly what the blueprint lists. -/
theorem fillLevel_goes (ho : m.store.HasObject o) (hn : n ≤ o.index)
    (hb : b.Fits W m.store) (hempty : m.store.Filling o fun _ => []) :
    (fillLevel k b o).Goes W n m fun _ t s => s.Filling o b.entries ∧ LevelFilled s t b o := by
  have hoperators := entries_goes hm b.operators hempty fun code hcode m' hreached htype =>
    defineMethod_goes (p := .operators) (hreached.ready hm) (ho.mono hreached.sizes) hn (by simp)
      ((hb.operators code hcode).mono hreached.sizes) htype
  refine Goes.bind hm hoperators ?_
  rintro _ t₁ m₁ hreached₁ ⟨hfilling₁, hinit₁⟩
  have hready₁ := hreached₁.ready hm
  have ho₁ := ho.mono hreached₁.sizes
  have hb₁ := hb.mono hreached₁.sizes
  have hmethods := entries_goes hready₁ b.methods hfilling₁ fun code hcode m' hreached htype =>
    defineMethod_goes (p := .members) (hreached.ready hready₁) (ho₁.mono hreached.sizes) hn
      (by simp) ((hb₁.methods code hcode).mono hreached.sizes) htype
  refine Goes.bind hready₁ hmethods ?_
  rintro _ t₂ m₂ hreached₂ ⟨hfilling₂, hinit₂⟩
  have hready₂ := hreached₂.ready hready₁
  have ho₂ := ho₁.mono hreached₂.sizes
  have hb₂ := hb₁.mono hreached₂.sizes
  have hproperties := entries_goes hready₂ b.properties hfilling₂ fun p hp m' hreached htype =>
    defineProperty_goes hk (hreached.ready hready₂) (ho₂.mono hreached.sizes) hn
      ((hb₂.properties p hp).mono hreached.sizes) htype
  refine Goes.bind hready₂ hproperties ?_
  rintro _ t₃ m₃ hreached₃ ⟨hfilling₃, hinit₃⟩
  have hready₃ := hreached₃.ready hready₂
  have ho₃ := ho₂.mono hreached₃.sizes
  have hb₃ := hb₂.mono hreached₃.sizes
  refine Goes.bind hready₃
    (fields_goes hk hready₃ .val b.vals ho₃ hn hb₃.home hb₃.vals hfilling₃) ?_
  rintro _ t₄ m₄ hreached₄ ⟨hfilling₄, hinit₄, hvals₄⟩
  have hready₄ := hreached₄.ready hready₃
  refine ((fields_goes hk hready₄ .var b.vars (ho₃.mono hreached₄.sizes) hn
    (hb₃.mono hreached₄.sizes).home hb.vars hfilling₄).grown hready₄).mono ?_
  rintro _ t₅ s ⟨⟨hfilling₅, hinit₅, hvars₅⟩, hgrows₅, hw₅⟩
  have hfour : t₄ <:+: t₁ ++ (t₂ ++ (t₃ ++ (t₄ ++ t₅))) :=
    ⟨t₁ ++ t₂ ++ t₃, t₅, by simp only [List.append_assoc]⟩
  have hfive : t₅ <:+: t₁ ++ (t₂ ++ (t₃ ++ (t₄ ++ t₅))) :=
    ⟨t₁ ++ t₂ ++ t₃ ++ t₄, [], by simp only [List.append_assoc, List.append_nil]⟩
  refine ⟨?_, ?_, fun f hf => (hvals₄ f hf).mono hready₄.sound.store.toWellformed hgrows₅ hfour,
    fun f hf => (hvars₅ f hf).mono hw₅ (.refl s) hfive⟩
  · have hentries : addEntries (addEntries (addEntries (addEntries (addEntries (fun _ => [])
        .operators (b.operators.map .method)) .members (b.methods.map .method)) .members
        (b.properties.map .property)) .fields (b.vals.map .val)) .fields (b.vars.map .var) =
        b.entries := by
      funext p
      cases p <;> simp [addEntries, Blueprint.entries]
    rw [← hentries]
    exact hfilling₅
  · have hvals : (b.vals.map Entry.val).map Entry.name = b.vals.map (·.name) := by
      rw [List.map_map]
      rfl
    simp only [addEntries, reduceCtorEq, if_false, if_true, List.nil_append, List.map_nil, hvals]
      at hinit₄ hinit₅
    rw [fieldSteps_append, fieldSteps_append, fieldSteps_append,
      fieldSteps_append, hinit₁, hinit₂, hinit₃, hinit₄, hinit₅, eachAfter_append]
    rfl

end Eval

end ObjectLang
