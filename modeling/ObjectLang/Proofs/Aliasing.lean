import ObjectLang.Proofs.Later

/-!
Variables do not alias.
A variable has one binding, or two if a module has taken it over from the table that its body ran
on. So an assignment to a name is seen through that name, through its twin and through views, and by
code that is run on reading; no other binding is touched.
-/
namespace ObjectLang

open Machine Routine

variable {c : CellId} {name : String} {old : ObjectId}

namespace Store

variable {W : Stock} {s s' : Store} {x : CellId}

/-- A name that is found in scopes is bound by one of them. -/
theorem binds_of_lookupIn (h : s.Wellformed W) {ts : List TableId} (hts : ∀ t ∈ ts, s.HasTable t)
    {n : String} (hc : s.lookupIn ts n = some c) : ∃ t ∈ ts, s.Binds t n c := by
  obtain ⟨t, ht, hlookup⟩ := List.exists_of_findSome?_eq_some hc
  refine ⟨t, ht, .of_lookup ?_ hlookup⟩
  obtain ⟨i, rfl, -⟩ := hts t ht
  exact (h.tables i).outer

/-- By way of views, reading the first cell comes to the second one. -/
inductive EndsIn (s : Store) (x : CellId) : CellId → Prop where
  | here : EndsIn s x x
  | view {c c' : CellId} (h : s.cell c = .view c') (rest : EndsIn s x c') : EndsIn s x c

/-- The value that a cell gives when no code is run to find it. -/
inductive Gives (s : Store) (v : ObjectId) : CellId → Prop where
  | var {c : CellId} (h : s.cell c = .var v) : Gives s v c
  | const {c : CellId} (h : s.cell c = .const v) : Gives s v c
  | view {c c' : CellId} (h : s.cell c = .view c') (rest : Gives s v c') : Gives s v c

theorem cell_assign_of_ne (v : ObjectId) (h : c ≠ x) :
    (s.assign x v).cell c = s.cell c := by
  rw [cell_assign, if_neg h]

theorem cell_assign_self (hx : s.cell x = .var old) (v : ObjectId) :
    (s.assign x v).cell x = .var v := by
  rw [cell_assign, if_pos rfl, hx]

/-- An assignment leaves every name bound as it was. -/
theorem lookupIn_assign (c : CellId) (v : ObjectId) :
    (s.assign c v).lookupIn = s.lookupIn := by
  have hlookup : (s.assign c v).lookup = s.lookup := by
    funext t n
    have hlocal : (s.assign c v).local? = s.local? := by
      funext t n
      rw [local?, bindings_assign, local?]
    have houter : (s.assign c v).outer t = s.outer t := by
      cases t with
      | free i => rfl
      | part o p => cases p <;> rfl
    rw [lookup, lookup, hlocal, houter]
  funext ts n
  rw [lookupIn, hlookup, lookupIn]

/-- Only what ends in the assigned cell gives another value. -/
theorem Gives.assign {w : ObjectId} (h : s.Gives w c) (hx : ¬ s.EndsIn x c) (v : ObjectId) :
    (s.assign x v).Gives w c := by
  induction h with
  | @var c h =>
    have hne : c ≠ x := fun heq => hx (heq ▸ .here)
    exact .var ((cell_assign_of_ne v hne).trans h)
  | @const c h =>
    have hne : c ≠ x := fun heq => hx (heq ▸ .here)
    exact .const ((cell_assign_of_ne v hne).trans h)
  | @view c c' h _ ih =>
    have hne : c ≠ x := fun heq => hx (heq ▸ .here)
    exact .view ((cell_assign_of_ne v hne).trans h) (ih fun hends => hx (.view h hends))

end Store

namespace Eval

variable {m : Machine} {v : ObjectId} {k : Inner}

/-- Reading goes along the views and comes to the value, if the evaluator may go deep enough. The
depth is the same in all stores `T` in which the cells `K` on the way are the same. -/
theorem readCell_follows {s : Store} {T : Store → Prop} {K : CellId → Prop}
    (hT : ∀ s', T s' → ∀ c, K c → s'.cell c = s.cell c)
    (hK : ∀ c c', K c → s.cell c = .view c' → K c') (h : s.Gives v c) (hc : K c) :
    ∃ n, ∀ d, n ≤ d → ∀ m receiver, T m.store →
      readCell (.ofDepth d) c receiver m = .done v m := by
  induction h with
  | @var c h | @const c h =>
    refine ⟨0, fun d _ m receiver hm => ?_⟩
    simp only [readCell, bind_run, see, quiet, hT _ hm c hc, h, pure_run]
  | @view c c' h _ ih =>
    obtain ⟨n, hn⟩ := ih (hK c c' hc h)
    refine ⟨n + 1, fun d hd m receiver hm => ?_⟩
    obtain ⟨d, rfl⟩ : ∃ d', d = d' + 1 := ⟨d - 1, by omega⟩
    have hrest := hn d (by omega) m receiver hm
    rw [readCell, bind_run]
    simp only [see, quiet, hT _ hm c hc, h]
    exact hrest

theorem readCell_gives (h : m.store.Gives v c) :
    ∃ n, ∀ d, n ≤ d → ∀ receiver, readCell (.ofDepth d) c receiver m = .done v m := by
  obtain ⟨n, hn⟩ := readCell_follows (T := (· = m.store)) (K := fun _ => True)
    (by rintro _ rfl _ _; rfl) (fun _ _ _ _ => trivial) h trivial
  exact ⟨n, fun d hd receiver => hn d hd m receiver rfl⟩

theorem setName_var (hc : m.lookup name = some c) (hold : m.store.cell c = .var old)
    (v : ObjectId) :
    setName k name v m = .done () { m with store := m.store.assign c v } := by
  simp only [setName, bind_run, Routine.read, quiet, hc, found, pure_run]
  simp only [writeVia, writeCell, bind_run, touch, see, quiet, hold, change]

theorem getName_var (hc : m.lookup name = some c) (hv : m.store.cell c = .var v) :
    getName k name m = .done v m := by
  simp only [getName, bind_run, Routine.read, quiet, hc, found, pure_run]
  simp only [readVia, readCell, bind_run, touch, see, quiet, hv, pure_run]

end Eval

namespace Machine

variable {m : Machine}

theorem Reachable.binds_of_lookup (h : Reachable m) (hc : m.lookup name = some c) :
    ∃ a t, m.stack.head? = some a ∧ t ∈ a.scopes ∧ m.store.Binds t name c := by
  rw [lookup, Option.bind_eq_some_iff] at hc
  obtain ⟨a, ha, hc⟩ := hc
  obtain ⟨t, ht, hbinds⟩ := Store.binds_of_lookupIn h.sound.store.toWellformed
    (h.sound.head ha).scopes hc
  exact ⟨a, t, ha, ht, hbinds⟩

/-- In every state of a run a variable is bound in one table under one name, but for the two tables
of a module. An assignment to a name that is found to be a variable succeeds, the name then reads as
the new value, and no table binds anything else than before. Of all bindings, the one that was found
and its twin hold the variable, views may end in it, and every other one holds what it held: it
gives the same value if no code is run to find it, and otherwise runs the same code. -/
theorem variables_apart (h : Reachable m) :
    (∀ x n x' n' c v, m.store.Binds x n c → m.store.Binds x' n' c → m.store.cell c = .var v →
      n = n' ∧ (x = x' ∨ m.store.Twins x x')) ∧
    ∀ d name v c old, m.lookup name = some c → m.store.cell c = .var old →
      ∃ a x m', m.stack.head? = some a ∧ x ∈ a.scopes ∧ m.store.Binds x name c ∧
        Eval.setName (.ofDepth d) name v m = .done () m' ∧
        Eval.getName (.ofDepth d) name m' = .done v m' ∧
        m'.store.bindings = m.store.bindings ∧
        ∀ x' n' c', m.store.Binds x' n' c' →
          (c' = c ∧ n' = name ∧ (x' = x ∨ m.store.Twins x' x)) ∨
          (c' ≠ c ∧ m.store.EndsIn c c' ∧ ∃ w, m.store.cell c' = .view w) ∨
          m'.store.cell c' = m.store.cell c' ∧
            ∀ w, m.store.Gives w c' → m'.store.Gives w c' ∧
              ∃ n, ∀ d', n ≤ d' → ∀ receiver,
                Eval.readCell (.ofDepth d') c' receiver m = .done w m ∧
                Eval.readCell (.ofDepth d') c' receiver m' = .done w m' := by
  refine ⟨h.tidy.single, fun d name v c old hc hold => ?_⟩
  obtain ⟨a, x, ha, hx, hbinds⟩ := h.binds_of_lookup hc
  refine ⟨a, x, { m with store := m.store.assign c v }, ha, hx, hbinds,
    Eval.setName_var hc hold v, ?_, m.store.bindings_assign c v, fun x' n' c' hc' => ?_⟩
  · exact Eval.getName_var (by simpa only [lookup, Store.lookupIn_assign] using hc)
      (Store.cell_assign_self hold v)
  by_cases heq : c' = c
  · subst heq
    exact Or.inl ⟨rfl, h.tidy.single x' n' x name c' old hc' hbinds hold⟩
  refine Or.inr ?_
  by_cases hends : m.store.EndsIn c c'
  · refine Or.inl ⟨heq, hends, ?_⟩
    cases hends with
    | here => exact absurd rfl heq
    | view hview _ => exact ⟨_, hview⟩
  · refine Or.inr ⟨Store.cell_assign_of_ne v heq, fun w hw => ?_⟩
    have hw' := hw.assign hends v
    obtain ⟨n₁, hn₁⟩ := Eval.readCell_gives hw
    obtain ⟨n₂, hn₂⟩ := Eval.readCell_gives (m := { m with store := m.store.assign c v }) hw'
    exact ⟨hw', max n₁ n₂, fun d' hd' receiver =>
      ⟨hn₁ d' (by omega) receiver, hn₂ d' (by omega) receiver⟩⟩

/-- The variable `n` of a program that has ended, assigned from outside. -/
theorem variables_apart_reading : ∃ m c old, After [sampleSource] m ∧ m.lookup "n" = some c ∧
    m.store.cell c = .var old ∧ ∀ v, ∃ m', Eval.setName (.ofDepth 24) "n" v m = .done () m' ∧
      Eval.getName (.ofDepth 24) "n" m' = .done v m' := by
  obtain ⟨m, hend, c, hc, old, hold, -⟩ := sample_reads
  have hm : After [sampleSource] m := .next .start 24 sampleSource hend
  refine ⟨m, c, old, hm, hc, hold, fun v => ?_⟩
  obtain ⟨-, -, m', -, -, -, hset, hget, -⟩ :=
    (variables_apart (.between hm)).2 24 "n" v c old hc hold
  exact ⟨m', hset, hget⟩

/-- A property that runs code reads as another value once a variable is assigned that its code
reads, though it neither is that variable nor a view of it. -/
theorem property_reads_variable : ∃ m m' o p old v, After [sampleSource] m ∧
    Eval.setName (.ofDepth 24) "n" v m = .done () m' ∧
    (m.store.Binds (.part o .members) "p" p ∧ ∃ getter, m.store.cell p = .computed getter none) ∧
    old ≠ v ∧ (∃ m₁, Eval.readCell (.ofDepth 24) p (some o) m = .done old m₁) ∧
    ∃ m₁, Eval.readCell (.ofDepth 24) p (some o) m' = .done v m₁ := by
  obtain ⟨m, hend, n, hn, old, hold, -, -, o, -, p, hp, hgetter, hne, hbefore, hafter⟩ :=
    sample_reads
  exact ⟨m, _, o, p, old, o, .next .start 24 sampleSource hend, Eval.setName_var hn hold o,
    ⟨.of_local? hp, hgetter⟩, hne, hbefore, hafter⟩

end Machine

end ObjectLang
