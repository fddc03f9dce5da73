import ObjectLang.Proofs.Faces

/-!
What is made is fixed.
Objects get their names while they are made and none later, modules get theirs before they are
registered, and the builtins and the root got theirs at the start. From then on only variables
change, and faces, when an instance becomes a level of another one.
-/
namespace ObjectLang

open Machine Routine

namespace Eval

variable {m m' : Machine} {o : ObjectId} {kind : Kind}

/-- What lies on the root is made at once, unless it is a method. -/
theorem makeRooted_complete {type : Roots → ObjectId} (hkind : ¬ kind.Callable)
    (h : makeRooted kind type m = .done o m') : m'.store.Complete o := by
  rw [makeRooted_run] at h
  cases h
  refine ⟨?_, ?_⟩
  · rw [Store.type, Store.object_rooted, if_pos rfl]
    simp [Store.rootedObject]
  · rw [Store.kind, Store.object_rooted, if_pos rfl]
    exact fun h => absurd h hkind

theorem makeMethod_complete {owner : ObjectId} {code : Code}
    (h : makeMethod owner code m = .done o m') : m'.store.Complete o := by
  rw [makeMethod_run] at h
  cases h
  refine ⟨?_, fun _ => ?_⟩
  · rw [Store.type, Store.object_addMethod, if_pos rfl]
    simp [Store.rootedObject]
  · rw [Store.local?, Store.bindings_part, Store.object_addMethod, if_pos rfl]
    simp [Object.bindings]

theorem makeClass_complete {b : Blueprint} (h : makeClass b m = .done o m') :
    m'.store.Complete o := by
  rw [makeClass_run] at h
  cases h
  refine ⟨?_, ?_⟩
  · change (m.store.addClass m.roots b).2.type _ ≠ none
    rw [Store.type, Store.type_addClass]
    simp
  · change ((m.store.addClass m.roots b).2.kind _).Callable → _
    rw [Store.kind_addClass]
    exact False.elim

/-- What has its type only lacks its call operator. -/
theorem answerCall_complete (htype : m.store.type o ≠ none) (h : answerCall o m = .done () m') :
    m'.store.Complete o := by
  have hhas := Store.has_of_type htype
  cases hrefusal : m.store.refusal? (.part o .operators) "()" with
  | some f =>
    have hrun : answerCall o m =
        .failed (.fault f) { m with store := (m.store.newCell (.const o)).2 } := by
      have hafter : (m.store.newCell (.const o)).2.refusal? (.part o .operators) "()" = some f :=
        hrefusal
      simp [answerCall, defineConst, bind_run, newCell, make, define, quiet, hafter]
    rw [hrun] at h
    cases h
  | none =>
    rw [answerCall, defineConst_run hrefusal m] at h
    cases h
    refine ⟨?_, fun _ => ?_⟩
    · change (m.store.addConst (.part o .operators) "()" o).type o ≠ none
      rw [Store.addConst, Store.type, Store.type_bind]
      exact htype
    · change (m.store.addConst (.part o .operators) "()" o).local? _ _ ≠ none
      rw [Store.local?, Store.bindings_addConst _ _ _ _ _ (hhas.holds _), if_pos rfl,
        List.lookup_cons_self]
      simp

variable {W : Stock} {k : Inner} {n : Nat}

theorem makeCallable_complete (hk : Good W k) (hm : Ready W n m) {name : String}
    (hkind : m.store.Payload W kind)
    (h : (do let o ← instanceOf k name kind; answerCall o; return o : Routine ObjectId) m =
      .done o m') : m'.store.Complete o := by
  obtain ⟨o₁, m₂, hinstance, hrest⟩ := done_of_bind h
  obtain ⟨c, m₁, hclass, hmade⟩ := done_of_bind hinstance
  obtain ⟨_, m₃, hanswer, hreturn⟩ := done_of_bind hrest
  cases hreturn
  have hon := ((builtin_goes hk hm name).done hclass).1.onward hm
  have hready : Ready W n m₁ := hon.ready hm
  have hgoes := instantiate_goes hk hready (c := c) (hkind.mono hon.grows.sizes)
  exact answerCall_complete (hgoes.done hmade).2.2.typed hanswer

end Eval

/-- An object that is as it was, but perhaps for its face. -/
structure Store.Unaltered (s s' : Store) (o : ObjectId) : Prop where
  tables : ∀ p, s'.bindings (.part o p) = s.bindings (.part o p)
  below : (s'.object o).below = (s.object o).below
  type : s'.type o = s.type o
  kind : s'.kind o = s.kind o

theorem Store.Lasts.unaltered {s s' : Store} {root o : ObjectId} (h : s.Lasts root s')
    (ho : s.Complete o) : s'.Complete o ∧ s.Unaltered s' o := by
  obtain ⟨hcomplete, htype, htables⟩ := h.complete o ho
  have hhas := Store.has_of_type ho.1
  exact ⟨hcomplete, htables, h.below o hhas, htype, h.kind o hhas⟩

namespace Machine

variable {m m' m₁ : Machine} {t : List Moment}

/-- The object is made, and stays as it is wherever the machine goes from there. -/
def Endures (m : Machine) (o : ObjectId) : Prop :=
  m.store.Complete o ∧ ∀ t m', Passage m t m' → m'.store.Complete o ∧ m.store.Unaltered m'.store o

/-- What a routine leaves behind complete is left alone by all that follows. -/
theorem Reachable.endures (h : Reachable m) {x : Routine ObjectId} {o : ObjectId}
    {Q : ObjectId → List Moment → Store → Prop} (hx : x.Goes .any 0 m Q) (hrun : x m = .done o m₁)
    (ho : m₁.store.Complete o) : m₁.Endures o := by
  have hpath := (hx.done hrun).1
  have hon := hpath.onward h.sound.ready
  have hfaced := (hpath.abides h.sound.ready h.abides.faced).faced
  exact ⟨ho, fun t m' hpassage => (hpassage.abides hon.sound hfaced).lasts.unaltered ho⟩

/-- The builtins and the tables of the root are those of the start. -/
theorem Reachable.start_kept (h : Reachable m) :
    m.builtins = initial.builtins ∧ m.roots = initial.roots ∧
      m.store.bindings initial.builtins = initial.store.bindings initial.builtins ∧
      ∀ p, m.store.bindings (.part initial.roots.root p) =
        initial.store.bindings (.part initial.roots.root p) := by
  obtain ⟨owner, main, hinitial⟩ := initial_atMain
  have hsound := start_initial.2.sound .any
  refine ⟨h.builtins_eq, h.abides.roots, ?_, ?_⟩
  · refine h.kept hinitial hsound.builtins.holds ?_
    rintro (heq | heq)
    · exact start_initial.2.proper.builtins.2 heq
    · have hmem : ⟨owner, "main", [main, initial.builtins], main, []⟩ ∈ initial.stack := by
        rw [hinitial.stack]
        exact List.mem_singleton.mpr rfl
      exact start_initial.2.apart _ hmem heq.symm
  · have hcomplete := start_initial.2.complete _ hsound.roots.root
    exact (h.abides.lasts.unaltered hcomplete).2.tables

/-- The tables of a registered module are sealed. -/
theorem Reachable.sealed (h : Reachable m) {n : String} {c : CellId} {o : ObjectId}
    {p : ModuleParts} (hc : m.store.local? m.modules n = some c) (ho : m.store.cell c = .const o)
    (hp : m.store.kind o = .ofModule p) {x : TableId} (hx : p.Owns x) :
    m.store.Sealed initial.modules x := by
  rw [h.proper.modules] at hc
  obtain ⟨p', hhas, ⟨o', ho', hp'⟩, hheld⟩ := h.proper.store.enrolled n c (.of_local? hc)
  cases ho.symm.trans ho'
  cases hp.symm.trans hp'
  exact ⟨n, c, p, hc, ⟨hhas, ⟨o, ho, hp⟩, hheld⟩, hx⟩

/-- From one state of a run to a later one: the builtins and the root bind what they did at the
start, what is made is as it was, and so are the tables of registered modules. A cell that differs
is a variable, and an object wears another face only if a new instance has been finished with the
object as one of its levels. The routines that make objects give what is made. Every stretch of a
run is a passage, and along all passages from where such a routine has ended its object stays as it
is. -/
theorem structure_fixed (h : Later m t m') :
    Passage m t m' ∧
    (m'.builtins = initial.builtins ∧ m'.roots = initial.roots ∧
      m'.store.bindings initial.builtins = initial.store.bindings initial.builtins ∧
      ∀ p, m'.store.bindings (.part initial.roots.root p) =
        initial.store.bindings (.part initial.roots.root p)) ∧
    (∀ o, m.store.Complete o → m'.store.Complete o ∧ m.store.Unaltered m'.store o) ∧
    (∀ n c o p, m.store.local? m.modules n = some c → m.store.cell c = .const o →
      m.store.kind o = .ofModule p → ∀ x, p.Owns x → m'.store.bindings x = m.store.bindings x) ∧
    (∀ c, m.store.HasCell c → m'.store.cell c = m.store.cell c ∨
      ∃ v v', m.store.cell c = .var v ∧ m'.store.cell c = .var v') ∧
    (∀ o, m.store.HasObject o → m'.store.face o = m.store.face o ∨
      (o ∈ (m'.store.object (m'.store.face o)).below ∧
        ¬ m.store.Finished m.roots.root (m'.store.face o) ∧
        m'.store.Finished m.roots.root (m'.store.face o))) ∧
    ∀ d o m₁,
      (∀ kind, m.store.Payload .any kind → ¬ kind.Callable → ∀ c,
        Eval.instantiate (.ofDepth d) c kind m = .done o m₁ → m₁.Endures o) ∧
      (∀ code, code.Fits .any m.store →
        Eval.makeFunction (.ofDepth d) code m = .done o m₁ → m₁.Endures o) ∧
      (∀ code captured, (Kind.closure code captured).Fits .any m.store →
        Eval.makeClosure (.ofDepth d) code captured m = .done o m₁ → m₁.Endures o) ∧
      (∀ owner code, Eval.makeMethod owner code m = .done o m₁ → m₁.store.Complete o ∧
        (m.store.HasObject owner → code.Fits .any m.store → m₁.Endures o)) ∧
      (∀ b, Eval.makeClass b m = .done o m₁ → m₁.store.Complete o ∧
        (b.Fits .any m.store → b.base ≠ none →
          (∀ base ∈ b.base, ∃ b', m.store.kind base = .ofClass b') → m₁.Endures o)) ∧
      ∀ kind type, (∃ p, kind = .ofModule p) ∨ (∃ x p, kind = .moduleAlias x p) →
        Eval.makeRooted kind type m = .done o m₁ → m₁.store.Complete o ∧
          (m.store.HasObject (type m.roots) → kind.Fits .any m.store → m₁.Endures o) := by
  have hfrom := h.reachable_from
  have hgood := good_ofDepth .any
  have hlasts := h.abides.lasts
  refine ⟨h.passage.2, h.reachable.start_kept, fun o ho => hlasts.unaltered ho, ?_, hlasts.content,
    hlasts.faces, fun d o m₁ => ⟨?_, ?_, ?_, ?_, ?_, ?_⟩⟩
  · intro n c o p hc ho hp x hx
    exact (h.seals x (hfrom.sealed hc ho hp hx)).2
  · intro kind hkind hcall c hrun
    have hgoes := Eval.instantiate_goes (hgood d) hfrom.ready (c := c) hkind
    have hbuilt := (hgoes.done hrun).2.2
    refine hfrom.endures hgoes hrun ⟨hbuilt.typed, ?_⟩
    rw [hbuilt.kind]
    exact fun h => absurd h hcall
  · intro code hcode hrun
    have hpayload : m.store.Payload .any (.function code) := ⟨hcode, by simp [Store.NoClass]⟩
    exact hfrom.endures (Eval.callable_goes (hgood d) hfrom.ready _ _ hpayload trivial) hrun
      (Eval.makeCallable_complete (hgood d) hfrom.ready hpayload hrun)
  · intro code captured hfits hrun
    have hpayload : m.store.Payload .any (.closure code captured) :=
      ⟨hfits, by simp [Store.NoClass]⟩
    exact hfrom.endures (Eval.callable_goes (hgood d) hfrom.ready _ _ hpayload trivial) hrun
      (Eval.makeCallable_complete (hgood d) hfrom.ready hpayload hrun)
  · intro owner code hrun
    have hmade := Eval.makeMethod_complete hrun
    exact ⟨hmade, fun howner hcode =>
      hfrom.endures (Eval.makeMethod_goes hfrom.ready howner hcode) hrun hmade⟩
  · intro b hrun
    have hmade := Eval.makeClass_complete hrun
    exact ⟨hmade, fun hb hsome hbase =>
      hfrom.endures (Eval.makeClass_goes hb hbase hsome) hrun hmade⟩
  · intro kind type hkind hrun
    obtain ⟨hclass, hcall⟩ : Store.NoClass kind ∧ ¬ kind.Callable := by
      rcases hkind with ⟨p, rfl⟩ | ⟨x, p, rfl⟩ <;> exact ⟨by simp [Store.NoClass], id⟩
    have hmade := Eval.makeRooted_complete hcall hrun
    exact ⟨hmade, fun htype hfits =>
      hfrom.endures (Eval.makeRooted_goes kind htype hfits hclass) hrun hmade⟩

/-- A later program counts a field, and the root stays as it was. An instance that is made in
between stays as it is made. -/
theorem structure_fixed_counter : ∃ m t m' c o m₁, Later m t m' ∧ m.store.Complete m.roots.root ∧
    m.store.Unaltered m'.store m.roots.root ∧
    m'.store.bindings initial.builtins = initial.store.bindings initial.builtins ∧
    Eval.instantiate (.ofDepth 16) c .plain m = .done o m₁ ∧ m₁.Endures o := by
  obtain ⟨m, hend, -, -, c, -, -, -, o, m₁, hmade, -⟩ := counter_classes
  obtain ⟨m₀, hend', -, -, -, -, -, -, -, -, -, -, -, -, -, -, e, m', hrun, -⟩ := counter_pried
  obtain rfl := Option.some.inj (hend.symm.trans hend')
  have hafter : After [counterSource] m := .next .start 16 counterSource hend
  have hlater := Later.ended (.next (.stay hafter) 16 pryingSource (by rw [hrun]; rfl))
  have habides := (Reachable.between hafter).abides
  have hcomplete : m.store.Complete m.roots.root := by
    have hstart := start_initial.2.complete _ (start_initial.2.sound .any).roots.root
    rw [habides.roots]
    exact (habides.lasts.complete _ hstart).1
  obtain ⟨-, ⟨-, -, hbuiltins, -⟩, hkept, -, -, -, hmakes⟩ := structure_fixed hlater
  exact ⟨m, _, m', c, o, m₁, hlater, hcomplete, (hkept _ hcomplete).2, hbuiltins, hmade,
    (hmakes 16 o m₁).1 .plain (Store.payload_plain _ _) id c hmade⟩

end Machine

end ObjectLang
