import ObjectLang.Proofs.Eval.Instances
import ObjectLang.Proofs.Machine.Guards

/-!
Making objects keeps guard.
The builtins that the machine makes use of are always there, so that finding them breaks nothing
off, and `self` and `super` are bound in a table that is new. Whatever is made holds nothing that
programs may not get hold of.
-/
namespace ObjectLang

open Machine Routine

/-- The arguments are a single string. -/
abbrev Store.Spelt (s : Store) (args : List ObjectId) : Prop :=
  ∃ text name, args = [text] ∧ s.asString text = some name

/-- The work that is handed on keeps guard. A method that reads members gets a string. -/
structure Inner.Guarded (k : Inner) : Prop where
  tame : k.Tame
  invoke : ∀ {m f receiver args}, m.store.HasObject f → (∀ r ∈ receiver, m.store.Ordinary r) →
    (∀ a ∈ args, m.store.Ordinary a) →
    (m.store.MethodBy Code.looks f → m.store.Spelt args) →
    (k.invoke f receiver args).Yields m
  read : ∀ {m c receiver}, m.store.Discreet c → (∀ r ∈ receiver, m.store.Ordinary r) →
    (k.read c receiver).Yields m
  evaluate : ∀ m e, (k.evaluate e).Yields m
  execute : ∀ m b, (k.execute b).Guards m fun flow m' => m'.store.Ordinary flow.value

namespace Eval

variable {k : Inner} {m : Machine} {o target v owner f : ObjectId} {c : CellId} {name : String}
  {receiver : Option ObjectId} {args : List ObjectId} {b : Blueprint} {code : Code}
  {home : Option TableId} {s s' : Store}

section Access

/-- A constant is read at a moment that programs come by. -/
theorem readVia_const (via : Route) (hv : m.store.cell c = .const v)
    (htarget : ∀ o op, via = .operator o op → m.store.Ordinary o := by simp) :
    (readVia k via c receiver).Guards m fun w m' => v = w ∧ m = m' := by
  refine .bind_touch (fun _ => .bind_see ?_) nofun nofun ?_
  · rw [hv]
    exact .pure ⟨rfl, rfl⟩
  · rintro o op _ ⟨⟩
    exact htarget o op rfl

/-- A name that is not found is the program's own fault. -/
theorem found_guards (name : String) (c? : Option CellId) :
    (found name c?).Guards m fun c m' => m = m' ∧ c? = some c := by
  cases c? with
  | none => exact .fail id
  | some c => exact .pure ⟨rfl, rfl⟩

/-- Whatever comes first of a builtin is a moment on the machine as it is. -/
theorem builtin_watched (h : (builtin k name).Watched m) : Reachable m := by
  have hres : (builtin k name).Resumes m ((found name (m.store.lookup m.builtins name)).doing
      (.builtin name) >>= fun c => readVia k (.table m.builtins name) c none) m :=
    (Resumes.bind (x := Routine.read (·.builtins)) rfl (moments_quiet _ m)).trans
      (.bind (x := see (·.lookup m.builtins name)) rfl (moments_quiet _ m))
  suffices hfirst : ∃ d, (⟨d, m⟩ : Moment) ∈ (builtin k name).moments m by
    obtain ⟨d, hd⟩ := hfirst
    exact h _ hd
  rw [hres.moments, moments_bind]
  cases hc : m.store.lookup m.builtins name with
  | none =>
    refine ⟨.breaks (.builtin name) (.fault (.unknownName name)), List.mem_append.mpr (Or.inl ?_)⟩
    rw [moments_doing]
    exact List.mem_append.mpr (Or.inr (List.mem_singleton.mpr rfl))
  | some c =>
    refine ⟨.reads (.table m.builtins name) c, List.mem_append.mpr (Or.inr ?_)⟩
    change _ ∈ (readVia k (.table m.builtins name) c none).moments m
    rw [readVia, moments_bind, moments_touch]
    exact List.mem_append.mpr (Or.inl (List.mem_singleton.mpr rfl))

/-- The machine's own builtins are found, so that looking for them breaks nothing off. -/
theorem builtin_guards (name : String) (hname : name ∈ Builtin.valueClasses ++ Builtin.values) :
    (builtin k name).Guards m fun v m' => m = m' ∧ m.store.Ordinary v := by
  refine .of_guarded fun hm => .of_watched fun hwatched => ?_
  obtain ⟨c, v, hc, hv⟩ : ∃ c v, m.store.local? m.builtins name = some c ∧
      m.store.cell c = .const v := by
    have hreachable := builtin_watched hwatched
    rcases List.mem_append.mp hname with hname | hname
    · obtain ⟨c, v, hc, hv, -⟩ := hreachable.simple hname
      exact ⟨c, v, hc, hv⟩
    · exact hreachable.constant hname
  have hlookup := Store.lookup_of_local? hc
  have hdiscreet := hm.store.discreet_lookup (fun o => TableId.ne_part hm.builtins o _) hlookup
  have hhas := hm.store.cells c hdiscreet.1
  rw [hv] at hhas
  refine .bind_read (.bind_see ?_)
  rw [hlookup]
  refine .bind_done (a := c) rfl ((moments_doing_done rfl _).trans (moments_pure c m)) ?_
  refine (readVia_const _ hv).mono ?_
  rintro _ _ - ⟨rfl, rfl⟩
  exact ⟨rfl, hhas, hdiscreet.2 _ hv⟩

theorem nothing_guards : (nothing k).Guards m fun v m' => m = m' ∧ m.store.Ordinary v :=
  builtin_guards _ (by decide)

theorem nothing_yields : (nothing k).Yields m := by
  refine nothing_guards.mono ?_
  rintro v _ - ⟨rfl, hv⟩
  exact hv

theorem lookup_discreet (hm : m.Guarded) (hc : m.lookup name = some c) : m.store.Discreet c := by
  obtain ⟨a, ha, hlookup⟩ := Option.bind_eq_some_iff.mp hc
  refine hm.store.discreet_lookupIn (fun t ht o => ?_) hlookup
  exact TableId.ne_part ((hm.stack a (List.mem_of_head? ha)).scopes t ht) o _

/-- An operator of all objects is found, so that looking for it breaks nothing off. -/
theorem findOperator_guards {op : String} (htarget : m.store.HasObject target)
    (hhook : op ∈ Builtin.objectBlueprint.operators.map Code.name) :
    ((operatorCell target op).doing (.operator op)).Guards m fun c m' =>
      m = m' ∧ m.store.lookup (.part target .operators) op = some c := by
  refine .doing (.bind_see ?_) _ fun e m' hfailed _ _ h => ?_
  · cases hc : m.store.lookup (.part target .operators) op with
    | none => exact .bind_see (.fail id)
    | some c => exact .pure ⟨rfl, rfl⟩
  rw [← operatorCell, operatorCell_eq] at hfailed
  split at hfailed
  · cases hfailed
  next hnone =>
  cases hfailed
  by_contra hformed
  obtain ⟨code, hcode, rfl⟩ := List.mem_map.mp hhook
  obtain ⟨c, hc⟩ := h.lookup_operator hcode htarget fun ho => hformed ⟨_, ho⟩
  rw [hc] at hnone
  cases hnone

theorem memberCell_guards (accessor target : ObjectId) (name : String) :
    (memberCell accessor target name).Guards m fun c m' => m = m' ∧ m.store.Discreet c := by
  refine .of_guarded fun hm => .bind_see ((found_guards name _).mono ?_)
  rintro c _ - ⟨rfl, hc⟩
  exact ⟨rfl, hm.store.discreet_lookupIn (hm.store.memberScope_discreet accessor target) hc⟩

variable (hk : k.Guarded)

include hk

theorem readCell_yields (hc : m.store.Discreet c) (hreceiver : ∀ r ∈ receiver, m.store.Ordinary r) :
    (readCell k c receiver).Yields m := by
  refine Guards.of_guarded fun hm => .bind_see ?_
  have hapt := hm.store.cells c hc.1
  cases hcell : m.store.cell c with
  | var v =>
    rw [hcell] at hapt
    exact .pure hapt
  | const v =>
    rw [hcell] at hapt
    exact .pure ⟨hapt, hc.2 v hcell⟩
  | computed getter setter =>
    rw [hcell] at hapt
    have hgetter : m.store.Ordinary getter := hapt.1.1
    exact hk.invoke hgetter.1 hreceiver (by simp) hgetter.unread
  | view shown =>
    rw [hcell] at hapt
    exact .bind_touch fun _ => hk.read hapt hreceiver

theorem readVia_yields (via : Route) (hc : m.store.Discreet c)
    (hreceiver : ∀ r ∈ receiver, m.store.Ordinary r)
    (htarget : ∀ o op, via = .operator o op → m.store.Ordinary o := by simp) :
    (readVia k via c receiver).Yields m := by
  refine Guards.bind_touch (fun _ => readCell_yields hk hc hreceiver) nofun nofun ?_
  rintro o op _ ⟨⟩
  exact htarget o op rfl

theorem writeCell_guards (hc : m.store.Discreet c) (hreceiver : ∀ r ∈ receiver, m.store.Ordinary r)
    (hv : m.store.Ordinary v) :
    (writeCell k c receiver v).Guards m fun _ _ => True := by
  refine .of_guarded fun hm => .bind_see ?_
  have hapt := hm.store.cells c hc.1
  cases hcell : m.store.cell c with
  | var w =>
    exact (Guards.change (fun hm => ⟨hm.store.assign hv, m.store.assign_grows c v⟩)
      fun _ => id).mono fun _ _ _ _ => trivial
  | computed getter setter =>
    rw [hcell] at hapt
    cases setter with
    | none => exact .fail id
    | some setter =>
      have hsetter := (hapt.2 setter rfl).1
      refine Guards.map _ (hk.invoke hsetter.1 hreceiver ?_ hsetter.unread) fun _ _ _ => trivial
      exact fun a ha => List.mem_singleton.mp ha ▸ hv
  | const w => exact .fail id
  | view shown => exact .fail id

theorem writeVia_guards (via : Route) (hc : m.store.Discreet c)
    (hreceiver : ∀ r ∈ receiver, m.store.Ordinary r) (hv : m.store.Ordinary v) :
    (writeVia k via c receiver v).Guards m fun _ _ => True :=
  .bind_touch fun _ => writeCell_guards hk hc hreceiver hv

theorem getName_yields (name : String) : (getName k name).Yields m := by
  refine Guards.of_guarded fun hm => .bind_read ((found_guards name _).bind ?_)
  rintro c _ - ⟨rfl, hc⟩
  exact readVia_yields hk _ (lookup_discreet hm hc) (by simp)

theorem setName_guards (name : String) (hv : m.store.Ordinary v) :
    (setName k name v).Guards m fun _ _ => True := by
  refine .of_guarded fun hm => .bind_read ((found_guards name _).bind ?_)
  rintro c _ - ⟨rfl, hc⟩
  exact writeVia_guards hk _ (lookup_discreet hm hc) (by simp) hv

/-- An operator is code, and the one that reads members is given a string. -/
theorem dispatch_yields {op : String} (hhook : op ∈ Builtin.objectBlueprint.operators.map Code.name)
    (htarget : m.store.Ordinary target) (hargs : ∀ a ∈ args, m.store.Ordinary a)
    (hop : op = "." → m.store.Spelt args) :
    (dispatch k target op args).Yields m := by
  refine Guards.of_guarded fun hm => (findOperator_guards htarget.1 hhook).bind ?_
  rintro c _ - ⟨rfl, hc⟩
  obtain ⟨f, hf, -, hhas, hlooks, -⟩ := hm.store.operator hc
  refine (readVia_const _ hf fun o _ heq => ?_).bind ?_
  · cases heq
    exact htarget
  rintro _ _ - ⟨rfl, rfl⟩
  refine hk.invoke hhas ?_ hargs fun hf => hop (hlooks htarget hf)
  intro r hr
  split at hr
  · cases hr
  · cases hr
    exact htarget

theorem setMember_guards (htarget : m.store.Ordinary target) (name : String)
    (hv : m.store.Ordinary v) : (setMember k target name v).Guards m fun _ _ => True := by
  refine .bind_top fun a rest _ _ => (memberCell_guards a.owner target name).bind ?_
  rintro c _ - ⟨rfl, hc⟩
  refine writeVia_guards hk _ hc ?_ hv
  rintro _ ⟨⟩
  exact htarget

end Access

section Methods

theorem makeRooted_guards (kind : Kind) {type : Roots → ObjectId}
    (htype : m.Guarded → m.store.Ordinary (type m.roots)) (hkind : kind.Apt m.store) :
    (makeRooted kind type).Guards m fun o m' => o = m.store.fresh ∧
      m'.store.HasObject o ∧ m'.store.kind o = kind ∧ m'.roots = m.roots := by
  refine .of_done (makeRooted_silent kind type m) (makeRooted_run kind type m) (fun hm => ?_)
    fun _ => ⟨rfl, by simp [Store.HasObject], ?_, rfl⟩
  · exact .of_store hm (hm.store.rooted hm.roots.root (htype hm) hkind) (Store.rooted_grows _ _ _ _)
      fun _ => .of_rooted
  · rw [Store.kind, Store.object_rooted, if_pos rfl]
    rfl

theorem answerCall_guards (ho : m.store.HasObject o) (hkind : (m.store.kind o).Callable) :
    (answerCall o).Guards m fun _ _ => True := by
  refine (Guards.defineConst (fun _ => ho) (fun _ => ⟨o, rfl, Or.inr ⟨rfl, rfl⟩⟩) ?_).mono
    fun _ _ _ _ => trivial
  rintro _ ⟨⟩
  exact ⟨⟨Or.inr ⟨rfl, rfl, hkind⟩, by simp⟩, .of_callable hkind⟩

def IsMethod (s : Store) (owner : ObjectId) (code : Code) (f : ObjectId) : Prop :=
  s.HasObject f ∧ s.kind f = .method owner code

theorem IsMethod.mono (h : IsMethod s owner code f) (hg : s.Grows s') :
    IsMethod s' owner code f :=
  ⟨h.1.mono hg.sizes, hg.kind_of_ne h.2 (by simp)⟩

theorem IsMethod.ordinary (h : IsMethod s owner code f) (hcode : code.Fair) :
    s.Ordinary f := ⟨h.1, fun hides => by simpa [hcode.2] using hides.of_kind h.2⟩

theorem makeMethod_guards (code : Code) (howner : m.store.Ordinary owner)
    (hcode : code.apt = true) :
    (makeMethod owner code).Guards m fun f m' => IsMethod m'.store owner code f := by
  have hkind : (Kind.method owner code).Apt m.store := ⟨howner, hcode⟩
  refine (makeRooted_guards _ (fun hm => hm.roots.method) hkind).bind ?_
  rintro f m₁ - ⟨-, hhas, hmethod, -⟩
  refine (answerCall_guards hhas (by rw [hmethod]; trivial)).bind fun _ m₂ hkeeps _ => .pure ?_
  exact IsMethod.mono ⟨hhas, hmethod⟩ hkeeps.grows

variable (ho : m.store.Ordinary o)
include ho

theorem defineMethod_guards {p : Part} (hbearer : m.store.Bearer o) (hcode : code.apt = true)
    (hp : code.hides = true → p = .operators ∧ (code.looks = true → code.name = "."))
    (hreads : p = .operators → code.name = "." → code.reads = true) :
    (defineMethod o p code).Guards m fun _ _ => True := by
  refine (makeMethod_guards _ ho hcode).bind fun f m₁ hkeeps hf => ?_
  have hoperator : ∀ x, TableId.part o p = .part x .operators →
      (m₁.store.Performs x code.name f ∧ (code.name = "." → m₁.store.MethodBy Code.reads f)) ∧
        m₁.store.Bearer x := by
    rintro x ⟨⟩
    exact ⟨⟨Or.inl ⟨o, code, hf.2, rfl⟩, fun hname => ⟨o, code, hf.2, hreads rfl hname⟩⟩,
      hbearer.mono hkeeps.grows⟩
  refine (Guards.defineConst (fun _ => hf.1) (fun hides => ?_) hoperator).mono
    fun _ _ _ _ => trivial
  obtain ⟨rfl, hname⟩ := hp (hides.of_kind hf.2)
  exact ⟨o, rfl, Or.inl ⟨fun hlooks => hname (hlooks.of_kind hf.2),
    fun heq => (ho.mono hkeeps.grows).2 (heq ▸ hides)⟩⟩

theorem maybeMethod_guards {code : Option Code} (hcode : ∀ c ∈ code, c.Fair ∧ c.isBlock = true) :
    (maybeMethod o code).Guards m fun f m' =>
      ∀ x ∈ f, m'.store.Ordinary x ∧ m'.store.MethodBy Code.isBlock x := by
  cases code with
  | none => exact .pure (by simp)
  | some code =>
    obtain ⟨hfair, hblock⟩ := hcode code rfl
    refine (makeMethod_guards _ ho hfair.1).map _ ?_
    rintro f m' hf _ ⟨⟩
    exact ⟨hf.ordinary hfair, o, code, hf.2, hblock⟩

/-- The cell of a property gives nothing away: it holds a variable, or calls a getter. -/
theorem defineProperty_guards {p : PropertyPlan} (hp : p.Apt) :
    (defineProperty k o p).Guards m fun _ _ => True := by
  have hcell : (propertyCell k o p).Guards m fun c m' => m'.store.Discreet c := by
    rw [propertyCell]
    split
    · refine nothing_guards.bind ?_
      rintro v _ - ⟨rfl, hv⟩
      refine (Guards.newCell (c := .var v) fun _ => hv).mono ?_
      rintro _ _ - ⟨rfl, rfl⟩
      exact ⟨by simp [Store.HasCell], fun f hf => by simp at hf⟩
    · next getter hgetter =>
      obtain ⟨hfair, htells⟩ := hp.getter getter hgetter
      refine (maybeMethod_guards ho hp.setter).bind fun s m₁ hkeeps hs => ?_
      refine (makeMethod_guards _ (ho.mono hkeeps.grows) hfair.1).bind fun g m₂ hkeeps₂ hg => ?_
      refine (Guards.newCell (c := .computed g s) fun _ => ?_).mono ?_
      · refine ⟨⟨hg.ordinary hfair, o, getter, hg.2, htells⟩, fun f hf => ?_⟩
        exact ⟨(hs f hf).1.mono hkeeps₂.grows, (hs f hf).2.mono hkeeps₂.grows⟩
      · rintro _ _ - ⟨rfl, rfl⟩
        exact ⟨by simp [Store.HasCell], fun f hf => by simp at hf⟩
    · exact .fail id
  refine hcell.bind fun c m₁ _ hc => (Guards.define fun _ => hc.allows (by simp) _).mono ?_
  exact fun _ _ _ _ => trivial

end Methods

section Activations

theorem superOf_guards (o : ObjectId) :
    (superOf k o).Guards m fun v m' => m = m' ∧ m.store.Ordinary v := by
  refine .of_guarded fun hm => .bind_see ?_
  cases hbase : m.store.base o with
  | some b => exact .pure ⟨rfl, hm.store.ordinary_base hbase⟩
  | none => exact nothing_guards

def SameStrings (s s' : Store) : Prop := ∀ o, s.Ordinary o → s'.asString o = s.asString o

theorem sameStrings_of_retains (h : s.Retains s.objects.size s') (hs : s.Guarded) :
    SameStrings s s' := by
  intro o ho
  rw [Store.asString, h.face ho.1, h.kind (hs.ordinary_face ho).1, ← Store.asString]

/-- A new activation has a new table as its innermost scope. -/
theorem newActivation_guards (name : String) (howner : m.store.Ordinary owner)
    (hhome : home.all TableId.isFree = true) :
    (newActivation owner name home).Guards m fun a m' => a.Sturdy m'.store ∧
      (∃ rest, a.scopes = .free m.store.tables.size :: rest) ∧
      m' = m.tabled := by
  let t : TableId := .free m.store.tables.size
  let a : Activation := ⟨owner, name, t :: (home.toList ++ [m.builtins]), home.getD t, []⟩
  have hrun : newActivation owner name home m =
      .done a m.tabled := by
    cases home <;> rfl
  have hfree : ∀ x ∈ home, x.isFree = true := Option.all_eq_true _ _ |>.mp hhome
  refine .of_done (silent_newActivation owner name home m) hrun (fun hm => ?_) fun hm =>
    ⟨⟨?_, List.cons_ne_nil _ _, ?_, ?_, List.nodup_nil⟩, ⟨_, rfl⟩, rfl⟩
  · exact .of_store hm (hm.store.newTable (by simp [Table.empty]) rfl) (m.store.newTable_grows _)
      fun _ => id
  · exact howner.mono (m.store.newTable_grows _)
  · intro x hx
    rcases List.mem_cons.mp hx with rfl | hx
    · rfl
    · rcases List.mem_append.mp hx with hx | hx
      · exact hfree x (Option.mem_toList.mp hx)
      · exact List.mem_singleton.mp hx ▸ hm.builtins
  · cases home with
    | none => rfl
    | some home => exact hfree home rfl

/-- The scope that `self` and `super` are bound in is new, so that nothing is in their way. -/
theorem ownedActivation_guards {this : ObjectId} (name : String) (howner : m.store.Ordinary owner)
    (hthis : m.store.Ordinary this) (hhome : home.all TableId.isFree = true) :
    (ownedActivation k owner this name home).Guards m fun a m' => a.Sturdy m'.store ∧
      SameStrings m.store m'.store := by
  refine .of_guarded fun hm => (superOf_guards owner).bind ?_
  rintro base _ - ⟨rfl, hbase⟩
  refine (newActivation_guards name howner hhome).bind ?_
  rintro a _ - ⟨ha, ⟨rest, hscopes⟩, rfl⟩
  have hone : m.store.Furnished _ [] (m.store.newTable .empty).2 := .newTable m.store
  refine .bind_see (.of_guarded fun hm₁ => ?_)
  have hself := (hm.store.ordinary_face hthis).mono (m.store.newTable_grows .empty)
  have htwo := hone.addConst (show "self" ∉ _ by simp) (m.store.face this)
  have hthree := htwo.addConst (show "super" ∉ _ by simp) base
  have hguarded := hm₁.store.addConst hone.has (hone.local?_eq_none (show "self" ∉ _ by simp)) hself
  have hgrows : (m.store.newTable .empty).2.Grows _ :=
    Store.addConst_grows _ (.free m.store.tables.size) "self" (m.store.face this) hone.has
      (hone.local?_eq_none (by simp))
  refine .of_resumes (defineOwn_furnished hscopes hone accepts_self (by simp) _ _)
    (fun hm₁ => .of_store hm₁ hguarded hgrows fun _ => .of_bind) (.of_guarded fun hm₂ => ?_)
  have hbase₂ := (hbase.mono (m.store.newTable_grows .empty)).mono hgrows
  have hgrows₂ := Store.addConst_grows _ (.free m.store.tables.size) "super" base htwo.has
    (htwo.local?_eq_none (by simp))
  refine .of_resumes (defineOwn_furnished (m := { m with store := _ }) hscopes htwo accepts_super
    (by simp) _ _) (fun hm₂ => .of_store hm₂ (hm₂.store.addConst htwo.has
      (htwo.local?_eq_none (by simp)) hbase₂) hgrows₂ fun _ => .of_bind) ?_
  exact .pure ⟨(ha.mono hgrows).mono hgrows₂, sameStrings_of_retains hthree.retains hm.store⟩

end Activations

section Instances

theorem blueprint_guards (c : ObjectId) :
    (blueprint c).Guards m fun b m' => m = m' ∧ m.store.kind c = .ofClass b := by
  refine .bind_see ?_
  split
  · next b hb => exact .pure ⟨rfl, hb⟩
  · exact .bind_see (.fail id)

/-- A new instance is its own face, and holds what it was made for. -/
structure Fresh (s : Store) (kind : Kind) (o : ObjectId) : Prop where
  ordinary : s.Ordinary o
  kind : s.kind o = kind
  face : s.face o = o

theorem Fresh.asString {text : String} (h : Fresh s (.string text) o) :
    s.asString o = some text := by rw [Store.asString, h.face, h.kind]

theorem makeClass_yields (hb : b.Apt m.store) : (makeClass b).Yields m := by
  refine (makeRooted_guards (.ofClass b) (fun hm => hm.roots.class_) hb).bind ?_
  rintro c m₁ - ⟨-, hhas, hkind, -⟩
  have hc : m₁.store.Ordinary c := Store.ordinary_of_kind hhas (by simp [hkind])
  refine (makeMethod_guards .constructor hc rfl).bind fun f m₂ h₂ hf => ?_
  have hfair := hf.ordinary ⟨rfl, rfl⟩
  have hoperator : ∀ x, TableId.part c .operators = .part x .operators →
      (m₂.store.Performs x "()" f ∧ ("()" = "." → m₂.store.MethodBy Code.reads f)) ∧
        m₂.store.Bearer x := by
    rintro x ⟨⟩
    exact ⟨⟨Or.inl ⟨c, _, hf.2, rfl⟩, by simp⟩,
      .mono ⟨hhas, by rw [Store.isModule, hkind]⟩ h₂.grows⟩
  refine (Guards.defineConst (fun _ => hf.1) hfair.elim hoperator).bind fun _ m₃ h₃ _ => ?_
  have hf₃ := hfair.mono h₃.grows
  refine (Guards.defineConst (fun _ => hf₃.1) hf₃.elim (by simp)).bind fun _ m₄ h₄ _ => ?_
  have hc₄ := hc.mono ((h₂.trans h₃).trans h₄).grows
  have hname : (defineName c).Guards m₄ fun _ _ => True := by
    refine (makeMethod_guards .nameGetter hc₄ rfl).bind fun g m₅ _ hg => ?_
    have hgetter := hg.ordinary ⟨rfl, rfl⟩
    refine (Guards.newCell (c := .computed g none) fun _ =>
      ⟨⟨hgetter, _, _, hg.2, rfl⟩, by simp⟩).bind ?_
    rintro x _ - ⟨rfl, rfl⟩
    refine (Guards.define fun _ => ?_).mono fun _ _ _ _ => trivial
    refine Store.Discreet.allows ⟨by simp [Store.HasCell], fun g' hg' => ?_⟩ (by simp) "name"
    simp at hg'
  refine hname.bind fun _ m₅ h₅ _ => (Guards.note _).bind fun _ m₆ h₆ _ => .pure ?_
  exact (hc₄.mono h₅.grows).mono h₆.grows

variable (hk : k.Guarded)

include hk

theorem fieldValue_yields (hb : b.Apt m.store) (ho : m.store.Ordinary o) (f : FieldPlan) :
    (fieldValue k b o f).Yields m := by
  rw [fieldValue]
  split
  · exact nothing_yields
  · next e _ =>
    refine (ownedActivation_guards _ ho ho hb.home).bind fun a m₁ _ ha => ?_
    exact .withActivation (S := fun v s => s.Ordinary v) ha.1 (hk.evaluate _ e)

theorem defineField_guards (hb : b.Apt m.store) (ho : m.store.Ordinary o) {cell : ObjectId → Cell}
    (hcell : cell = .const ∨ cell = .var) (f : FieldPlan) :
    (defineField k b o cell f).Guards m fun _ _ => True := by
  refine .bind_touch fun _ => (fieldValue_yields hk hb ho f).bind fun v m₁ _ hv => ?_
  have hapt : (cell v).Apt m₁.store := by
    rcases hcell with rfl | rfl
    · exact hv.1
    · exact hv
  refine (Guards.newCell fun _ => hapt).bind ?_
  rintro c _ - ⟨rfl, rfl⟩
  refine .bind_touch fun _ => (Guards.define fun _ => ?_).mono fun _ _ _ _ => trivial
  refine Store.Discreet.allows ⟨by simp [Store.HasCell], fun g hg => ?_⟩ (by simp) f.name
  have hlooks := (hv.mono (m₁.store.newCell_grows (cell v))).2
  rcases hcell with rfl | rfl
  · cases (m₁.store.cell_newCell_self (.const v)).symm.trans hg
    exact hlooks
  · cases (m₁.store.cell_newCell_self (.var v)).symm.trans hg

theorem fillLevel_guards (hb : b.Apt m.store) (ho : m.store.Ordinary o)
    (hbearer : m.store.Bearer o) :
    (fillLevel k b o).Guards m fun _ _ => True := by
  refine (Guards.forM _ fun c hc m₁ hkeeps => ?_).bind fun _ m₁ h₁ _ => ?_
  · exact defineMethod_guards (ho.mono hkeeps.grows) (hbearer.mono hkeeps.grows)
      (hb.operators c hc).1 (fun _ => ⟨rfl, (hb.operators c hc).2.1⟩)
      fun _ => (hb.operators c hc).2.2
  refine (Guards.forM _ fun c hc m₂ hkeeps => ?_).bind fun _ m₂ h₂ _ => ?_
  · have hgrows := (h₁.trans hkeeps).grows
    refine defineMethod_guards (ho.mono hgrows) (hbearer.mono hgrows) (hb.methods c hc).1
      (fun hides => ?_) nofun
    rw [(hb.methods c hc).2] at hides
    cases hides
  have h₁₂ := h₁.trans h₂
  refine (Guards.forM _ fun p hp m₃ hkeeps => ?_).bind fun _ m₃ h₃ _ => ?_
  · exact defineProperty_guards (ho.mono (h₁₂.trans hkeeps).grows) (hb.properties p hp)
  have h₁₃ := h₁₂.trans h₃
  refine (Guards.forM _ fun f _ m₄ hkeeps => ?_).bind fun _ m₄ h₄ _ => ?_
  · have hgrows := (h₁₃.trans hkeeps).grows
    exact defineField_guards hk (hb.mono hgrows) (ho.mono hgrows) (Or.inl rfl) f
  · refine Guards.forM _ fun f _ m₅ hkeeps => ?_
    have hgrows := ((h₁₃.trans h₄).trans hkeeps).grows
    exact defineField_guards hk (hb.mono hgrows) (ho.mono hgrows) (Or.inr rfl) f

theorem makeBase_guards (hb : b.Apt m.store) :
    (makeBase k b).Guards m fun base m' =>
      match base with
      | some o => m'.store.Ordinary o
      | none => b.base = none ∧ m = m' := by
  rw [makeBase]
  split
  · next base hbase =>
    exact Guards.map _ (dispatch_yields hk (by decide) (hb.base base hbase) (by simp) (by simp))
      fun _ _ hv => hv
  · next hbase => exact .pure ⟨hbase, rfl⟩

/-- A new level is filled, and then it gets its face and its type. -/
theorem settle_guards {c : ObjectId} (hb : b.Apt m.store) (hc : m.store.Ordinary c)
    (ho : m.store.Ordinary o) (hbearer : m.store.Bearer o) :
    (fillLevel k b o >>= fun _ => Routine.change (·.wearFace o) >>= fun _ =>
      Routine.change (·.setType o c) >>= fun _ => Pure.pure o).Guards m fun x m' =>
        Fresh m'.store (m.store.kind o) x ∧ x = o ∧ m'.store.type o ≠ none := by
  refine (fillLevel_guards hk hb ho hbearer).bind fun _ m₁ h₁ _ => ?_
  have ho₁ := ho.mono h₁.grows
  refine (Guards.change (fun hm => ⟨hm.store.wearFace ho₁, (Store.wearFace_alike _ o).grows⟩)
    fun _ => .of_wearFace).bind ?_
  rintro _ _ h₂ rfl
  have hc₂ := hc.mono (h₁.trans h₂).grows
  refine (Guards.change (fun hm => ⟨hm.store.setType o hc₂, (Store.setType_alike _ o c).grows⟩)
    fun _ => .of_setType).bind ?_
  rintro _ _ h₃ rfl
  refine .pure ⟨⟨(ho₁.mono h₂.grows).mono h₃.grows, ?_, ?_⟩, rfl, ?_⟩
  · exact ((h₁.trans h₂).trans h₃).grows.kind o ho.1
  · have hworn : (m₁.store.wearFace o).face o = o := by
      rw [Store.face, Store.object_wearFace, if_pos ⟨Store.mem_levels_self _ o, ho₁.1⟩]
      rfl
    change ((m₁.store.wearFace o).setType o c).face o = o
    rw [Store.face, Store.object_setType]
    split <;> exact hworn
  · change (m₁.store.settle o c).type o ≠ none
    rw [Store.type_settle _ _ ho₁.1, if_pos rfl]
    simp

omit hk in
theorem newValue_ordinary {kind : Kind} (hvalue : kind.isValue = true) (s : Store)
    (base : Option ObjectId) : (s.newObject base kind).2.Ordinary s.fresh ∧
      (s.newObject base kind).2.Bearer s.fresh ∧
      (s.newObject base kind).2.kind s.fresh = kind := by
  have hkind : (s.newObject base kind).2.kind s.fresh = kind := by
    rw [Store.kind, Store.object_newObject_self]
    rfl
  have hhas : (s.newObject base kind).2.HasObject s.fresh := by simp [Store.HasObject]
  refine ⟨Store.ordinary_of_kind hhas fun owner code hmethod => ?_, ⟨hhas, ?_⟩, hkind⟩
  · cases hkind.symm.trans hmethod
    cases hvalue
  · rw [Store.isModule, hkind]
    cases kind with
    | ofModule p => cases hvalue
    | moduleAlias target p => cases hvalue
    | _ => rfl

/-- No code runs while the bottom of an object is in the making. -/
theorem instantiate_guards {c : ObjectId} (kind : Kind) (hc : m.store.Ordinary c)
    (hkind : kind.Apt m.store) (hvalue : kind.isValue = true) :
    (instantiate k c kind).Guards m fun o m' => Fresh m'.store kind o := by
  refine .bind_touch fun h => .of_guarded fun hm => (blueprint_guards c).bind ?_
  rintro b _ - ⟨rfl, hb⟩
  have hapt : b.Apt m.store := by
    have hapt := hm.store.kinds c
    rwa [hb] at hapt
  refine (makeBase_guards hk hapt).bind fun base m₁ h₁ hbase => ?_
  obtain ⟨ho, hbearer, hnew⟩ := newValue_ordinary hvalue m₁.store base
  have hgrows := m₁.store.newObject_grows base kind
  have hrest := settle_guards hk (m := { m₁ with store := (m₁.store.newObject base kind).2 })
    ((hapt.mono h₁.grows).mono hgrows) ((hc.mono h₁.grows).mono hgrows) ho hbearer
  rw [show Store.kind _ _ = kind from hnew] at hrest
  cases base with
  | some l =>
    refine (Guards.newObject hbase (hkind.mono h₁.grows)).bind ?_
    rintro _ _ - ⟨rfl, rfl⟩
    exact hrest.mono fun _ _ _ hend => hend.1
  | none =>
    obtain ⟨htop, rfl⟩ := hbase
    have hsimple := h.simple_top hb htop
    obtain ⟨m₂, hfill, -⟩ := fillLevel_simple (k := k) hsimple
      (m := { m with store := (m.store.newObject none kind).2 }) ho.1 fun p => by
        rw [Store.partNames, Store.bindings_part, Store.object_newObject_self]
        cases p <;> rfl
    have hguarded : (m.store.newObject none kind).2.Guarded := hm.store.newObject (by simp) hkind
    refine hrest.of_silent (.bind rfl (moments_quiet _ m)) ?_ ?_
      (fun hm => hm.of_store hguarded hgrows) ?_
    · exact ((fillLevel_silent hsimple _).bind fun _ => (silent_quiet _).bind fun _ =>
        (silent_quiet _).bind fun _ => silent_pure _) _
    · rw [bind_run, hfill]
      intro _ _ hfailed
      cases hfailed
    · rintro _ _ hkeeps ⟨hfresh, -, htype⟩
      refine ⟨⟨hkeeps.guarded, hgrows.trans hkeeps.grows, fun x hx => ?_, hkeeps.tables⟩, hfresh⟩
      have hold : (m.store.newObject none kind).2.Formless x := hkeeps.formed x hx
      exact hold.of_newObject fun heq => absurd (heq ▸ hx.2.1) htype

theorem instanceOf_guards (kind : Kind) (hname : name ∈ Builtin.valueClasses)
    (hkind : kind.Apt m.store) (hvalue : kind.isValue = true) :
    (instanceOf k name kind).Guards m fun o m' => Fresh m'.store kind o := by
  refine (builtin_guards _ (List.mem_append.mpr (Or.inl hname))).bind ?_
  rintro c _ - ⟨rfl, hc⟩
  exact instantiate_guards hk _ hc hkind hvalue

theorem string_guards (s : String) :
    (string k s).Guards m fun o m' => Fresh m'.store (.string s) o :=
  instanceOf_guards hk _ (by decide) trivial rfl

theorem string_yields (s : String) : (string k s).Yields m :=
  (string_guards hk s).mono fun _ _ _ ho => ho.ordinary

theorem integer_yields (n : Int64) : (integer k n).Yields m :=
  (instanceOf_guards hk (.integer n) (by decide) trivial rfl).mono
    fun _ _ _ ho => ho.ordinary

theorem float_yields (x : Float) : (float k x).Yields m :=
  (instanceOf_guards hk (.float x) (by decide) trivial rfl).mono
    fun _ _ _ ho => ho.ordinary

/-- A function or closure answers calls by itself. -/
theorem callable_yields (kind : Kind) (hname : name ∈ Builtin.valueClasses)
    (hkind : kind.Apt m.store) (hvalue : kind.isValue = true) (hcallable : kind.Callable) :
    (instanceOf k name kind >>= fun o => answerCall o >>= fun _ => Pure.pure o).Yields m := by
  refine (instanceOf_guards hk _ hname hkind hvalue).bind fun o m₁ _ ho => ?_
  refine (answerCall_guards ho.ordinary.1 (ho.kind ▸ hcallable)).bind fun _ m₂ h₂ _ => .pure ?_
  exact ho.ordinary.mono h₂.grows

theorem makeFunction_yields (hcode : code.Fair) : (makeFunction k code).Yields m :=
  callable_yields hk (.function code) (by decide) hcode rfl trivial

theorem makeClosure_yields {captured : Activation} (hcode : code.Fair)
    (hcaptured : captured.Sturdy m.store) : (makeClosure k code captured).Yields m :=
  callable_yields hk (.closure code captured) (by decide) ⟨hcode, hcaptured⟩ rfl trivial

end Instances

end Eval

end ObjectLang
