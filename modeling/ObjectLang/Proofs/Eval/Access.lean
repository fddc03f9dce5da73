import ObjectLang.Proofs.Machine.Goes

/-!
Cells, names and operators go well.
`Good` says what a step of the evaluator may ask of the work it hands on. Every cell that is read or
written was found by a route that leads there, and what is found fits into the store.
-/
namespace ObjectLang

variable {c : CellId} {name : String} {t : TableId}

namespace Store

variable {W : Stock} {s : Store}

theorem local?_of_lookup (h : s.lookup t name = some c) :
    ∃ t' ∈ t :: s.outer t, s.local? t' name = some c :=
  List.exists_of_findSome?_eq_some h

theorem hasCell_of_lookup (h : s.Wellformed W) (hc : s.lookup t name = some c) :
    s.HasCell c := by
  obtain ⟨t', -, ht'⟩ := local?_of_lookup hc
  exact h.hasCell_of_local? ht'

theorem hasCell_of_lookupIn (h : s.Wellformed W) {ts : List TableId}
    (hc : s.lookupIn ts name = some c) : s.HasCell c := by
  obtain ⟨t, -, ht⟩ := List.exists_of_findSome?_eq_some hc
  exact hasCell_of_lookup h ht

end Store

open Machine Routine

/-- What a step of the evaluator may ask of the work it hands on. -/
structure Good (W : Stock) (k : Inner) : Prop where
  depth : ∃ d, k = .ofDepth d
  invoke : ∀ {n : Nat} {m : Machine} {f : ObjectId} {receiver : Option ObjectId}
    {args : List ObjectId}, Ready W n m → m.store.HasObject f →
    (∀ r ∈ receiver, m.store.HasObject r) → (∀ a ∈ args, m.store.HasObject a) →
    (k.invoke f receiver args).Delivers W n m
  read : ∀ {n : Nat} {m : Machine} {c : CellId} {receiver : Option ObjectId}, Ready W n m →
    m.store.HasCell c → (∀ r ∈ receiver, m.store.HasObject r) →
    (k.read c receiver).Delivers W n m
  evaluate : ∀ {n : Nat} {m : Machine} {e : Expr}, Ready W n m → W.expr e →
    (k.evaluate e).Delivers W n m
  execute : ∀ {n : Nat} {m : Machine} {b : Block}, Ready W n m → W.block b →
    (k.execute b).Goes W n m fun v _ s => s.HasObject v.value
  /-- A class that is called by its constructor builds an instance. -/
  construct : ∀ {n : Nat} {m : Machine} {c f : ObjectId} {b : Blueprint}, Ready W n m →
    m.store.kind c = .ofClass b → m.store.kind f = .method c .constructor →
    (k.invoke f (some c) []).Goes W n m fun o t s =>
      Built s m.store.objects.size c o .plain t

namespace Eval

variable {W : Stock} {k : Inner} {n : Nat} {m : Machine} {receiver : Option ObjectId}
  {target value v : ObjectId} {β : Type} {R : β → List Moment → Store → Prop}
  {f : CellId → Routine β} {via : Route} {op : String}

theorem silent_defineConst (t : TableId) (name : String) (v : ObjectId) :
    (defineConst t name v).Silent := (silent_quiet _).bind fun _ => silent_quiet _

/-- Where the store of a machine may be another one, the store is named. -/
theorem define_run {s : Store} (h : s.refusal? t name = none) (m : Machine) :
    define t name c { m with store := s } = .done () { m with store := s.bind t name c } := by
  simp [define, quiet, h]

theorem defineConst_run {s : Store} (h : s.refusal? t name = none) (m : Machine) :
    defineConst t name v { m with store := s } = .done () { m with store := s.addConst t name v } :=
  define_run (s := (s.newCell (.const v)).2) h m

theorem newCell_run (c : Cell) (m : Machine) :
    newCell c m = .done ⟨m.store.cells.size⟩ { m with store := (m.store.newCell c).2 } := rfl

theorem bind_found {o : Option CellId} (hf : ∀ c, o = some c → (f c).Goes W n m R) :
    (found name o >>= f).Goes W n m R := by
  cases o with
  | some c => exact Goes.bind_reader rfl (moments_pure c m) (hf c rfl)
  | none => exact Goes.bind_failed rfl (moments_quiet _ m) (W.own (.unknownName name) (by simp))

theorem bare_found (name : String) (o : Option CellId) : (found name o).Bare := by
  cases o with
  | some c => rintro m e m' ⟨⟩
  | none => exact bare_fail _

/-- What a cell holds for ever is found without further ado. -/
theorem readVia_finds (hv : m.store.cell c = .const v) (k : Inner) (via : Route)
    (receiver : Option ObjectId) : (readVia k via c receiver).Finds m v := by
  have hcell : (readCell k c receiver).Resumes m (pure v) m := by
    rw [readCell]
    refine (Resumes.bind (a := .const v) ?_ (moments_quiet _ m)).trans ⟨rfl, rfl⟩
    simp [quiet, hv]
  refine ⟨?_, ?_⟩
  · rw [readVia, bind_run_done (show touch (.reads via c) m = .done () m from rfl), hcell.run]
    rfl
  · refine Still.bind ?_ ?_
    · rw [Still, moments_touch, List.forall_mem_singleton]
      rfl
    · rintro _ _ ⟨⟩
      exact still_of_silent (hcell.moments.trans (moments_pure v m))

theorem builtin_resumes (hc : m.store.local? m.builtins name = some c) (k : Inner) :
    (builtin k name).Resumes m (readVia k (.table m.builtins name) c none) m := by
  have hsee : see (·.lookup m.builtins name) m = .done (some c) m := by
    simp [see, quiet, Store.lookup_of_local? hc]
  have hfound : found name (some c) m = .done c m := rfl
  rw [builtin]
  refine (Resumes.bind (show Routine.read (·.builtins) m = .done m.builtins m from rfl)
    (moments_quiet _ m)).trans ((Resumes.bind hsee (moments_quiet _ m)).trans (.bind hfound ?_))
  rw [moments_doing_done hfound]
  exact moments_pure c m

/-- A builtin that is a constant is found likewise. -/
theorem builtin_finds (hc : m.store.local? m.builtins name = some c)
    (hv : m.store.cell c = .const v) (k : Inner) :
    (builtin k name).Finds m v := by
  have hread := readVia_finds hv k (.table m.builtins name) none
  have hreaches := Reaches.of_resumes (builtin_resumes hc k)
  exact ⟨hreaches.run.trans hread.run, hreaches.still hread.still⟩

theorem builtin_run (hc : m.store.local? m.builtins name = some c) (hv : m.store.cell c = .const v)
    (k : Inner) :
    builtin k name m = .done v m := (builtin_finds hc hv k).run

/-- The value `nothing` is always there. -/
theorem nothing_run (hm : m.Sound W) (k : Inner) : ∃ v, nothing k m = .done v m := by
  obtain ⟨c, v, hc, hv⟩ := hm.nothing
  exact ⟨v, builtin_run hc hv k⟩

theorem operatorCell_eq (target : ObjectId) (op : String) (m : Machine) :
    operatorCell target op m =
      match m.store.lookup (.part target .operators) op with
      | some c => .done c m
      | none => .failed (.fault (.unsupported (m.store.typeName target) op)) m := by
  simp only [operatorCell, bind_run, see, quiet]
  cases m.store.lookup (.part target .operators) op <;> rfl

theorem silent_operatorCell (target : ObjectId) (op : String) :
    (operatorCell target op).Silent := by
  refine (silent_quiet _).bind fun c => ?_
  cases c with
  | some c => exact silent_pure c
  | none => exact (silent_quiet _).bind fun _ => silent_quiet _

theorem bare_operatorCell (target : ObjectId) (op : String) : (operatorCell target op).Bare := by
  intro m e m' h
  rw [operatorCell_eq] at h
  split at h
  · cases h
  · cases h
    exact ⟨_, rfl⟩

/-- An operator that is found is not told. -/
theorem operatorCell_resumes (hc : m.store.lookup (.part target .operators) op = some c)
    (f : CellId → Routine β) :
    ((operatorCell target op).doing (.operator op) >>= f).Resumes m (f c) m := by
  have hrun : operatorCell target op m = .done c m := by rw [operatorCell_eq, hc]
  exact .bind hrun ((moments_doing_done hrun _).trans (silent_operatorCell target op m))

/-- An operator that is a constant is called. -/
theorem dispatch_const {g : ObjectId} (hc : m.store.lookup (.part target .operators) op = some c)
    (hg : m.store.cell c = .const g) (k : Inner) (args : List ObjectId) :
    (dispatch k target op args).Reaches m
      (k.invoke g (if g = target then none else some target) args) m := by
  have hread := readVia_finds hg k (.operator target op) (some target)
  exact (Reaches.of_resumes (operatorCell_resumes hc _)).trans (.bind hread.run hread.still)

theorem bind_operatorCell (hm : Ready W n m)
    (hf : ∀ c, m.store.lookup (.part target .operators) op = some c → (f c).Goes W n m R) :
    ((operatorCell target op).doing (.operator op) >>= f).Goes W n m R := by
  cases hc : m.store.lookup (.part target .operators) op with
  | some c =>
    have hres := operatorCell_resumes hc f
    exact Goes.of_rest (.stay m) hres.run hres.moments (hf c hc) fun _ _ hkept => hkept
  | none =>
    have hrun := operatorCell_eq target op m
    rw [hc] at hrun
    have hfail : (operatorCell target op).Goes W n m fun _ _ _ => False :=
      Goes.of_failed hrun (silent_operatorCell target op m) (W.own (.unsupported _ op) (by simp))
    exact Goes.bind hm (hfail.doing (bare_operatorCell target op) _) fun _ _ _ _ h => h.elim

theorem bind_memberCell {accessor : ObjectId}
    (hf : ∀ c, m.store.lookupIn (m.store.memberScope accessor target) name = some c →
      (f c).Goes W n m R) : (memberCell accessor target name >>= f).Goes W n m R :=
  Goes.assoc (Goes.bind_see (bind_found hf))

variable (hk : Good W k) (hm : Ready W n m)

include hk hm

theorem readCell_goes (hc : m.store.HasCell c) (hr : ∀ r ∈ receiver, m.store.HasObject r) :
    (readCell k c receiver).Delivers W n m := by
  have hfits := hm.sound.store.cells c hc
  refine Goes.bind_see ?_
  cases hcell : m.store.cell c with
  | var v =>
    rw [hcell] at hfits
    exact Goes.pure hfits
  | const v =>
    rw [hcell] at hfits
    exact Goes.pure hfits
  | computed getter setter =>
    rw [hcell] at hfits
    exact hk.invoke hm hfits.1 hr (by simp)
  | view shown =>
    rw [hcell] at hfits
    exact Goes.bind_touch hcell rfl (hk.read hm hfits hr)

theorem readVia_goes (hvia : via.Leads m 1 c) (hc : m.store.HasCell c)
    (hr : ∀ r ∈ receiver, m.store.HasObject r) :
    (readVia k via c receiver).Delivers W n m :=
  Goes.bind_touch hvia rfl (readCell_goes hk hm hc hr)

/-- A cell is assigned at the very moment of the deed; any other cell is left to its setter. -/
theorem writeVia_goes (hvia : via.Leads m 0 c) (hc : m.store.HasCell c)
    (hr : ∀ r ∈ receiver, m.store.HasObject r) (hv : m.store.HasObject value) :
    (writeVia k via c receiver value).Goes W n m fun _ _ _ => True := by
  have hhonest : Moment.Honest W n ⟨.writes via c value, m⟩ := ⟨hvia, hv⟩
  have hafter (hvar : ∀ old, m.store.cell c ≠ .var old) :
      Moment.after ⟨.writes via c value, m⟩ = m := by
    simp [Moment.after, Store.assign_eq_self _ _ _ hvar]
  cases hcell : m.store.cell c with
  | var old =>
    have hrun : writeVia k via c receiver value m =
        .done () { m with store := m.store.assign c value } := by
      simp [writeVia, writeCell, bind_run, touch, see, quiet, change, hcell]
    refine Goes.of_done hrun ?_ (.refl _ _) trivial
    have htrace : (writeVia k via c receiver value).moments m = [⟨.writes via c value, m⟩] := by
      rw [writeVia, moments_bind_done rfl, moments_touch, writeCell, moments_bind_done rfl]
      simp [see, hcell, change]
    rw [htrace]
    exact Path.moment hhonest
  | const v =>
    refine Goes.bind_touch hhonest (hafter (by simp [hcell])) (Goes.bind_see ?_)
    rw [hcell]
    exact Goes.fail (W.own _ (by simp))
  | computed getter setter =>
    have hfits := hm.sound.store.cells c hc
    rw [hcell] at hfits
    refine Goes.bind_touch hhonest (hafter (by simp [hcell])) (Goes.bind_see ?_)
    rw [hcell]
    cases setter with
    | some setter =>
      have hargs : ∀ a ∈ [value], m.store.HasObject a := by simpa using hv
      exact (hk.invoke hm (hfits.2 setter rfl) hr hargs).map hm fun _ _ _ _ => trivial
    | none => exact Goes.fail (W.own _ (by simp))
  | view shown =>
    refine Goes.bind_touch hhonest (hafter (by simp [hcell])) (Goes.bind_see ?_)
    rw [hcell]
    exact Goes.fail (W.own _ (by simp))

theorem getIn_goes (ht : m.store.HasTable t) (name : String) : (getIn k t name).Delivers W n m := by
  refine Goes.bind_see (bind_found fun c hc => ?_)
  have hcell := Store.hasCell_of_lookup hm.sound.store.toWellformed hc
  exact readVia_goes hk hm ⟨ht, hc⟩ hcell (by simp)

theorem builtin_goes (name : String) : (builtin k name).Delivers W n m := by
  refine Goes.bind_read (Goes.bind_see ?_)
  cases hc : m.store.lookup m.builtins name with
  | some c =>
    have hcell := Store.hasCell_of_lookup hm.sound.store.toWellformed hc
    refine Goes.bind_reader (a := c) rfl ((moments_doing_done rfl _).trans (moments_pure c m)) ?_
    exact readVia_goes hk hm ⟨hm.sound.builtins, hc⟩ hcell (by simp)
  | none =>
    have hfail : (found name none).Goes W n m fun _ _ _ => False :=
      Goes.fail (W.own (.unknownName name) (by simp))
    exact Goes.bind hm (hfail.doing (bare_found name none) _) fun _ _ _ _ h => h.elim

theorem nothing_goes : (nothing k).Delivers W n m := builtin_goes hk hm "nothing"

omit hk in
omit hm in
theorem hasCell_of_name (hm : m.Sound W) (hc : m.lookup name = some c) :
    m.store.HasCell c := by
  rw [Machine.lookup, Option.bind_eq_some_iff] at hc
  obtain ⟨a, -, ha⟩ := hc
  exact Store.hasCell_of_lookupIn hm.store.toWellformed ha

theorem getName_goes (name : String) : (getName k name).Delivers W n m := by
  refine Goes.bind_read (bind_found fun c hc => ?_)
  exact readVia_goes hk hm hc (hasCell_of_name hm.sound hc) (by simp)

theorem dispatch_goes {args : List ObjectId} (htarget : m.store.HasObject target)
    (hargs : ∀ a ∈ args, m.store.HasObject a) :
    (dispatch k target op args).Delivers W n m := by
  refine bind_operatorCell hm fun c hc => ?_
  have hcell := Store.hasCell_of_lookup hm.sound.store.toWellformed hc
  refine Goes.bind hm (readVia_goes hk hm hc hcell (by simpa using htarget)) ?_
  intro f _ m' hreached hf
  refine hk.invoke (hreached.ready hm) hf ?_ fun a ha => (hargs a ha).mono hreached.sizes
  intro r hr
  split at hr
  · cases hr
  · cases hr
    exact htarget.mono hreached.sizes

/-- Calling a class builds an instance. -/
theorem dispatch_class_goes {c : ObjectId} {b : Blueprint} (hc : m.store.kind c = .ofClass b) :
    (dispatch k c "()" []).Goes W n m fun o t s =>
      s.Wellformed W ∧ Built s m.store.objects.size c o .plain t := by
  obtain ⟨i, f, hlocal, hcell, hkind⟩ := (hm.sound.store.answers c b hc).construct
  have hlookup : m.store.lookup (.part c .operators) "()" = some i := by
    simp [Store.lookup, hlocal]
  refine bind_operatorCell hm fun i' hi' => ?_
  obtain rfl : i = i' := Option.some.inj (hlookup.symm.trans hi')
  have hread : (readVia k (.operator c "()") i (some c)).Goes W n m fun v t s =>
      v = f ∧ s = m.store ∧ t = [⟨.reads (.operator c "()") i, m⟩] := by
    refine Goes.bind_touch hi' rfl (Goes.bind_see ?_)
    rw [hcell]
    exact Goes.pure ⟨rfl, rfl, rfl⟩
  refine Goes.bind hm hread ?_
  rintro f' _ m' hreached ⟨rfl, hstore, rfl⟩
  have hne : f' ≠ c := by
    rintro rfl
    rw [hkind] at hc
    cases hc
  rw [if_neg hne]
  rw [← hstore] at hc hkind ⊢
  have hready := hreached.ready hm
  refine ((hk.construct hready hc hkind).grown hready).mono ?_
  rintro o t s ⟨hbuilt, -, hw⟩
  exact ⟨hw, hbuilt.prepend hw (Nat.le_refl _) fun _ _ => rfl⟩

theorem setMember_goes (name : String) (htarget : m.store.HasObject target)
    (hv : m.store.HasObject value) :
    (setMember k target name value).Goes W n m fun _ _ _ => True := by
  refine Goes.bind_peek fun running hrunning => bind_memberCell fun c hc => ?_
  have hcell := Store.hasCell_of_lookupIn hm.sound.store.toWellformed hc
  exact writeVia_goes hk hm ⟨⟨running, hrunning, rfl⟩, hc⟩ hcell (by simpa using htarget) hv

end Eval

end ObjectLang
