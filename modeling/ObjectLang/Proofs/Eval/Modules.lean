import ObjectLang.Proofs.Eval.Calls

/-!
Modules go well.
What a module shares with others are cells of tables that code runs on, and views of these. No cell
of a field is among them.
-/
namespace ObjectLang

variable {t : TableId} {name : String} {c : CellId}

namespace Store

variable {W : Stock} {s : Store}

theorem common_of_lookup (h : s.Wellformed W) (ht : s.HasTable t)
    (hc : s.lookup t name = some c) : s.Common c := by
  obtain ⟨t', ht', hlocal⟩ := local?_of_lookup hc
  have houter : s.outer t = [] := by
    obtain ⟨i, rfl, -⟩ := ht
    exact (h.tables i).outer
  rw [houter, List.mem_singleton] at ht'
  subst ht'
  exact common_of_mem h ht (Wellformed.local?_mem hlocal)

theorem common_bind (ht : s.HasTable t) (name : String) (c : CellId) {x : CellId}
    (hx : s.Common x) : (s.bind t name c).Common x := by
  refine ⟨⟨by simpa [HasCell] using hx.shared.1, ?_⟩, by rw [cell_bind]; exact hx.still⟩
  rintro ⟨o, y, hy⟩
  rw [bindings_bind s t name c _ ht.holds, if_neg (ht.ne_part o .fields).symm] at hy
  exact hx.shared.2 ⟨o, y, hy⟩

end Store

namespace Eval

open Machine Routine

variable {W : Stock} {k : Inner} {n : Nat} {m : Machine} {o : ObjectId} {body : Block}

def StillShares (m : Machine) (s : Store) : Prop := ∀ c, m.store.Common c → s.Common c

theorem defineShared_goes (ht : m.store.HasTable t) (hc : m.store.Common c) :
    (define t name c).Goes W n m fun _ _ s => StillShares m s := by
  refine (Goes.defineFree ht hc).mono ?_
  rintro _ _ s rfl x hx
  exact Store.common_bind ht name c hx

/-- A new name in the innermost scope of the running activation. -/
theorem declare_goes (hm : Ready W n m) (hc : m.store.Common c) :
    (declare name c).Goes W n m fun _ _ s => StillShares m s := by
  refine Goes.bind_peek fun a ha => ?_
  have hfits := hm.sound.stack a (List.mem_of_getElem? ha)
  rw [defineLocal]
  cases hscopes : a.scopes with
  | nil => exact Goes.fail (W.own (.noScope a.name) (by simp))
  | cons t rest => exact defineShared_goes (hfits.scopes t (by simp [hscopes])) hc

/-- Bindings that can be shared are shared one after the other. -/
theorem shareEach_goes (hm : Ready W n m) {g : String × CellId → Routine Unit} (l : Bindings)
    (hl : ∀ b ∈ l, m.store.Common b.2)
    (hstep : ∀ b m', Reached W n m m' → m'.store.Common b.2 →
      (g b).Goes W n m' fun _ _ s => StillShares m' s) :
    (l.forM g).Goes W n m fun _ _ _ => True := by
  refine (Goes.forM hm l (fun _ _ s => ∀ b ∈ l, s.Common b.2) hl ?_).mono fun _ _ _ _ => trivial
  intro before b after heq t m' hreached hshared
  have hb : b ∈ l := by simp [heq]
  refine (hstep b m' hreached (hshared b hb)).mono ?_
  intro _ _ s hstill b' hb'
  exact hstill b'.2 (hshared b' hb')

theorem common_sorted (hm : m.Sound W) (ht : m.store.HasTable t) :
    ∀ b ∈ (m.store.bindings t).sorted, m.store.Common b.2 := by
  intro b hb
  exact Store.common_of_mem hm.store.toWellformed ht ((mem_sortBy _).mp hb)

theorem defineAll_goes (hm : Ready W n m) (ht : m.store.HasTable t) (l : Bindings)
    (hl : ∀ b ∈ l, m.store.Common b.2) :
    (defineAll t l).Goes W n m fun _ _ _ => True :=
  shareEach_goes hm l hl fun _ _ hreached hb =>
    (defineShared_goes (ht.mono hreached.sizes) hb).doing (bare_define _ _ _) _

theorem showName_goes (hm : Ready W n m) {parts : ModuleParts} (hparts : parts.Fits m.store)
    (name : String) : (showName parts name).Goes W n m fun _ _ _ => True := by
  refine Goes.bind_see (bind_found fun c hc => ?_)
  have hshared := Store.common_of_lookup hm.sound.store.toWellformed hparts.hidden hc
  refine Goes.bind hm (Goes.newCell (c := .view c) hshared.shared.1 ?_) ?_
  · rintro x ⟨⟩
    exact hshared.shared.2
  · rintro v _ m' hreached ⟨rfl, hstore, rfl⟩
    refine ((Goes.defineFree (hparts.shown.mono hreached.sizes) ?_).doing
      (bare_define _ _ _) _).mono
      fun _ _ _ _ => trivial
    rw [hstore]
    refine Store.common_newCell hm.sound.store.toWellformed ?_ trivial
    rintro ⟨⟩
    exact Nat.lt_irrefl _ hshared.shared.1

theorem refuseTaken_goes (name : String) :
    (refuseTaken name).Goes W n m fun _ _ _ => True := by
  refine Goes.bind_read (Goes.bind_see ?_)
  split
  · exact Goes.fail (W.own (.moduleTaken name) (by simp))
  · exact Goes.pure trivial

theorem registerModule_goes (hm : Ready W n m) (name : String) (ho : m.store.HasObject o) :
    (registerModule name o).Goes W n m fun _ _ _ => True := by
  refine Goes.bind hm (refuseTaken_goes name) ?_
  rintro _ _ m' hreached -
  have hready := hreached.ready hm
  exact Goes.bind_read (Goes.defineFreeConst hready hready.sound.modules (ho.mono hreached.sizes))

theorem runModuleBody_goes (hk : Good W k) (hm : Ready W n m) (name : String)
    (ho : m.store.HasObject o) (hbody : W.block body) :
    (runModuleBody k o name body).Goes W n m fun r _ s => s.HasTable r.1 := by
  refine Goes.bind hm (newActivation_goes hm name ho (by simp)) ?_
  rintro a _ m₁ hreached ⟨ha, -⟩
  have hready := (hreached.ready hm).push ha
  refine Goes.withActivation ha (Goes.bind hready (hk.execute hready hbody) ?_)
  intro _ _ m₂ hreached₂ _
  refine Goes.bind_peek fun b hb => Goes.pure ?_
  exact (hreached₂.sound.stack b (List.mem_of_getElem? hb)).home

theorem declareModule_goes (hk : Good W k) (hm : Ready W n m) (name : String)
    (hbody : W.block body) : (declareModule k name body).Delivers W n m := by
  refine Goes.bind hm (refuseTaken_goes name) ?_
  rintro _ _ m₁ hreached₁ -
  have hready₁ := hreached₁.ready hm
  refine Goes.bind hready₁ Goes.newTable ?_
  rintro hidden _ m₂ hreached₂ ⟨-, hhidden⟩
  have hready₂ := hreached₂.ready hready₁
  refine Goes.bind hready₂ Goes.newTable ?_
  rintro shown _ m₃ hreached₃ ⟨-, hshown⟩
  have hready₃ := hreached₃.ready hready₂
  have hparts : ModuleParts.Fits m₃.store ⟨name, hidden, shown⟩ :=
    ⟨hhidden.mono hreached₃.sizes, hshown⟩
  refine Goes.bind hready₃ (makeRooted_goes (.ofModule ⟨name, hidden, shown⟩)
    hready₃.sound.roots.module_ hparts (by simp [Store.NoClass])) ?_
  rintro o _ m₄ hreached₄ ⟨-, ho, hstore⟩
  have ho₄ : m₄.store.HasObject o := by simp [hstore, ho, Store.HasObject]
  have hready₄ := hreached₄.ready hready₃
  have hparts₄ := hparts.mono hreached₄.sizes
  refine Goes.bind hready₄ (runModuleBody_goes hk hready₄ name ho₄ hbody) ?_
  rintro ⟨home, exports⟩ _ m₅ hreached₅ hhome
  have hready₅ := hreached₅.ready hready₄
  have hparts₅ := hparts₄.mono hreached₅.sizes
  refine Goes.bind_see (Goes.bind hready₅
    (defineAll_goes hready₅ hparts₅.hidden _ (common_sorted hready₅.sound hhome)) ?_)
  rintro _ _ m₆ hreached₆ -
  have hready₆ := hreached₆.ready hready₅
  have hparts₆ := hparts₅.mono hreached₆.sizes
  refine Goes.bind hready₆ (Goes.each hready₆ exports fun x _ m' hreached =>
    showName_goes (hreached.ready hready₆) (hparts₆.mono hreached.sizes) x) ?_
  rintro _ _ m₇ hreached₇ -
  have hready₇ := hreached₇.ready hready₆
  refine Goes.bind_see (Goes.bind hready₇ (Goes.note _) ?_)
  rintro _ _ m₈ hreached₈ -
  have hready₈ := hreached₈.ready hready₇
  have ho₈ := (((ho₄.mono hreached₅.sizes).mono hreached₆.sizes).mono hreached₇.sizes).mono
    hreached₈.sizes
  refine Goes.bind hready₈ (registerModule_goes hready₈ name ho₈) ?_
  rintro _ _ m₉ hreached₉ -
  exact Goes.pure (ho₈.mono hreached₉.sizes)

/-- Names are recorded on the running activation, which is that of a module. -/
theorem exportNames_goes (names : List String) :
    (exportNames names).Goes W n m fun _ _ _ => True := by
  refine Goes.bind_peek fun a ha => Goes.bind_see ?_
  split
  · next parts hparts =>
    have hhead : m.stack.head? = some a := by rwa [List.head?_eq_getElem?]
    obtain ⟨rest, hstack⟩ : ∃ rest, m.stack = a :: rest := List.head?_eq_some_iff.mp hhead
    obtain ⟨extra, heq, hkeys⟩ := Activation.foldl_record names a
    refine Goes.of_done (a := ()) rfl ?_ ?_ trivial
    · rw [Routine.modify, moments_quiet]
      exact .single (.record names hhead hparts)
    · simp only [modifyTop_eq hstack]
      rw [hstack, heq]
      exact .running rest ⟨extra, rfl, hkeys, Or.inr ⟨parts, hparts⟩⟩
  · exact Goes.fail (W.own .exportOutside (by simp))

theorem importModule_goes (hk : Good W k) (hm : Ready W n m) (name : String) (binding : Binding) :
    (importModule k name binding).Goes W n m fun _ _ _ => True := by
  refine Goes.bind hm (Goes.bind_read (getIn_goes hk hm hm.sound.modules name)) ?_
  intro o _ m₁ hreached ho
  have hready := hreached.ready hm
  have hfits : (m₁.store.kind o).Fits W m₁.store := (hready.sound.store.objects o).kind
  refine Goes.bind_see ?_
  cases hkind : m₁.store.kind o with
  | ofModule parts =>
    rw [hkind] at hfits
    have hparts : parts.Fits m₁.store := hfits
    cases binding with
    | everything =>
      refine Goes.bind_see (shareEach_goes hready _ (common_sorted hready.sound hparts.shown) ?_)
      exact fun b m' hreached' hb => declare_goes (hreached'.ready hready) hb
    | only names =>
      refine Goes.each hready names fun x _ m' hreached' => ?_
      have hready' := hreached'.ready hready
      refine Goes.bind_see (bind_found fun c hc => ?_)
      have hshared := Store.common_of_lookup hready'.sound.store.toWellformed
        (hparts.shown.mono hreached'.sizes) hc
      exact (declare_goes hready' hshared).mono fun _ _ _ _ => trivial
    | under other =>
      refine Goes.bind hready (makeRooted_goes (.moduleAlias o parts)
        hready.sound.roots.module_ ⟨ho, hparts⟩ (by simp [Store.NoClass])) ?_
      rintro a _ m₂ hreached₂ ⟨-, ha, hstore⟩
      have hready₂ := hreached₂.ready hready
      have ha₂ : m₂.store.HasObject a := by simp [hstore, ha, Store.HasObject]
      refine Goes.bind hready₂ (Goes.newCell (c := .const a) ha₂ (by simp)) ?_
      rintro c _ m₃ hreached₃ ⟨-, hstore₃, rfl⟩
      refine (declare_goes (hreached₃.ready hready₂) ?_).mono fun _ _ _ _ => trivial
      rw [hstore₃]
      exact Store.common_newCell hready₂.sound.store.toWellformed (by simp) trivial
  | _ => exact Goes.fail (W.own (.notModule name) (by simp))

end Eval

end ObjectLang
