import ObjectLang.Proofs.Machine.Confined
import ObjectLang.Proofs.Store.Proper

/-!
Civil routines: those that scripts lead to.
On a proper machine such a routine fails with no fault about the form of names or about a setter
without a getter. The machine is proper at every moment and in the end, and a table of a registered
module gets no further names from any moment to a later one. A licence says which table the routine
may bind names in. There is one rule for each way of putting routines together.
-/
namespace ObjectLang

/-- A fault that scripts can lead to. -/
def Fault.Proper : Fault → Prop
  | .invalidName .. | .setterAlone _ => False
  | _ => True

def Error.Proper : Error → Prop
  | .fault f => f.Proper
  | .malformed _ => True
  | .fatal cause _ => cause.Proper

variable {e : Error}

theorem Error.Proper.leaving (h : e.Proper) (text : String) : (e.leaving text).Proper := by
  cases e <;> exact h

theorem Error.Proper.rootCause (h : e.Proper) : e.rootCause.Proper := by
  induction e with
  | fault f => exact h
  | malformed e => trivial
  | fatal cause excerpt ih => exact ih h

variable {t : TableId} {a : Activation}

namespace Machine

variable {R : TableId} {m m' m'' : Machine} {a' : Activation}

structure Proper (R : TableId) (m : Machine) : Prop where
  store : m.store.Proper R m.roots.root
  modules : m.modules = R
  builtins : m.builtins.Plain R
  stack : ∀ a ∈ m.stack, a.Proper R

/-- Where a civil routine leaves the machine. -/
structure Leaves (R : TableId) (m m' : Machine) : Prop where
  store : Store.Leaves R m.roots.root m.store m'.store
  modules : m'.modules = m.modules
  builtins : m'.builtins = m.builtins
  roots : m'.roots = m.roots
  tables : m'.stack.map Activation.tables = m.stack.map Activation.tables

namespace Leaves

theorem refl (h : m.Proper R) : Leaves R m m := ⟨.refl h.store, rfl, rfl, rfl, rfl⟩

theorem trans (h : Leaves R m m') (h' : Leaves R m' m'') : Leaves R m m'' where
  store := h.store.trans (h.roots ▸ h'.store)
  modules := h'.modules.trans h.modules
  builtins := h'.builtins.trans h.builtins
  roots := h'.roots.trans h.roots
  tables := h'.tables.trans h.tables

theorem of_store {s : Store} (h : Store.Leaves R m.roots.root m.store s) :
    Leaves R m { m with store := s } := ⟨h, rfl, rfl, rfl, rfl⟩

/-- Nothing but what activations note, the output and the log differs. -/
theorem of_same (hm : m.Proper R) {l : List Activation} (sink : Sink) (log : List Event)
    (hl : l.map Activation.tables = m.stack.map Activation.tables) :
    Leaves R m { m with stack := l, sink := sink, log := log } :=
  ⟨.refl hm.store, rfl, rfl, rfl, hl⟩

theorem mem_tables (h : Leaves R m m') (ha' : a' ∈ m'.stack) :
    ∃ a ∈ m.stack, a.tables = a'.tables := by
  have hmem : a'.tables ∈ m.stack.map Activation.tables := h.tables ▸ List.mem_map_of_mem ha'
  exact List.mem_map.mp hmem

theorem proper (h : Leaves R m m') (hm : m.Proper R) : m'.Proper R where
  store := h.roots ▸ h.store.proper
  modules := h.modules.trans hm.modules
  builtins := h.builtins ▸ hm.builtins
  stack a' ha' := by
    obtain ⟨a, ha, htables⟩ := h.mem_tables ha'
    obtain ⟨hscopes, hhome⟩ := Prod.mk.inj htables
    exact ⟨hscopes ▸ (hm.stack a ha).scopes, hhome ▸ (hm.stack a ha).home⟩

/-- The running activation runs on the tables that it ran on before. -/
theorem running (h : Leaves R m m') (ha' : m'.stack.head? = some a') :
    ∃ a, m.stack.head? = some a ∧ a'.tables = a.tables := head_of_tables h.tables ha'

end Leaves

theorem Proper.push (h : m.Proper R) (ha : a.Proper R) : (m.push a).Proper R where
  store := h.store
  modules := h.modules
  builtins := h.builtins
  stack b hb := by
    rcases List.mem_cons.mp hb with rfl | hb
    · exact ha
    · exact h.stack b hb

/-- The table may get names: it is plain and sealed by no module. -/
def Open (R : TableId) (m : Machine) (t : TableId) : Prop :=
  t.Plain R ∧ m.store.Holds t ∧ ¬ m.store.Sealed R t

theorem Open.lasts (h : m.Open R t) (hstep : m.Leaves R m') : m'.Open R t :=
  ⟨h.1, h.2.1.mono hstep.store.grows.sizes, fun hsealed =>
    h.2.2 (hstep.store.fresh t h.2.1 hsealed)⟩

/-- A table that was not there before is open. -/
theorem Leaves.opens (h : m.Leaves R m') (hm : m.Proper R) (hplain : t.Plain R)
    (hnew : ¬ m.store.Holds t) (hholds : m'.store.Holds t)
    (hregistry : m'.store.bindings R = m.store.bindings R) : m'.Open R t :=
  ⟨hplain, hholds, fun hsealed =>
    hnew (hm.store.sealed_of_same h.store.grows hregistry hsealed).holds⟩

end Machine

/-- A moment of a civil routine. -/
structure Moment.Proper (R : TableId) (p : Moment) : Prop where
  machine : p.machine.Proper R
  error : ∀ s e, p.deed = .leaves s e → e.Proper

open Machine Store

namespace Routine

/-- What a civil routine passes through on a machine: wherever it comes to, what was sealed before
is kept. -/
structure Minds {α : Type} (R : TableId) (x : Routine α) (m : Machine) : Prop where
  fails : ∀ e m', x m = .failed e m' → e.Proper
  moments : ∀ p ∈ x.moments m, p.Proper R
  comes : ∀ t m', x.Comes m t m' → Seals R m.store m'.store ∧
    ∀ p ∈ t, Seals R p.machine.store m'.store

/-- What a civil routine does on a machine. -/
structure Behaves {α : Type} (R : TableId) (x : Routine α) (m : Machine) : Prop
    extends Minds R x m where
  ends : ∀ m', (x m).machine? = some m' → m.Leaves R m'

namespace Minds

variable {α β : Type} {R : TableId} {x y : Routine α} {f : α → Routine β} {m m' : Machine}

/-- A routine that passes no moments. -/
theorem of_silent (hsilent : x.moments m = [])
    (hends : ∀ m', (x m).machine? = some m' → Seals R m.store m'.store)
    (hfails : ∀ e m', x m = .failed e m' → e.Proper) : x.Minds R m := by
  refine ⟨hfails, by simp [hsilent], fun t m' h => ?_⟩
  obtain ⟨rfl, hend⟩ := h.of_silent hsilent
  exact ⟨hends m' hend, by simp⟩

theorem of_resumes (hres : x.Resumes m y m') (hstep : Seals R m.store m'.store)
    (hy : y.Minds R m') : x.Minds R m := by
  refine ⟨fun e m'' hfailed => hy.fails e m'' (hres.run ▸ hfailed), hres.moments ▸ hy.moments, ?_⟩
  intro t m'' h
  obtain ⟨hseals, hpassed⟩ := hy.comes t m'' (h.of_resumes hres)
  exact ⟨hstep.trans hseals, hpassed⟩

theorem bind (hx : x.Minds R m) (hf : ∀ a m₁, x m = .done a m₁ → (f a).Minds R m₁) :
    (x >>= f).Minds R m := by
  refine ⟨fun e m' hfailed => ?_, fun p hp => ?_, fun t m' h => ?_⟩
  · rcases failed_of_bind hfailed with hrun | ⟨a, m₁, hrun, hrest⟩
    · exact hx.fails e m' hrun
    · exact (hf a m₁ hrun).fails e m' hrest
  · rcases mem_bind hp with hp | ⟨a, m₁, hrun, hp⟩
    · exact hx.moments p hp
    · exact (hf a m₁ hrun).moments p hp
  · rcases h.bind with h | ⟨a, m₁, t', hrun, rfl, hafter⟩
    · exact hx.comes t m' h
    · obtain ⟨hfirst, hpassed⟩ := hx.comes _ m₁ (.ends (by rw [hrun]; rfl))
      obtain ⟨hseals, hpassed'⟩ := (hf a m₁ hrun).comes t' m' hafter
      exact ⟨hfirst.trans hseals, List.forall_mem_append.mpr
        ⟨fun p hp => (hpassed p hp).trans hseals, hpassed'⟩⟩

end Minds

namespace Behaves

variable {α β : Type} {R : TableId} {x y : Routine α} {f : α → Routine β} {m m' : Machine}

theorem of_silent (hsilent : x.moments m = [])
    (hends : ∀ m', (x m).machine? = some m' → m.Leaves R m')
    (hfails : ∀ e m', x m = .failed e m' → e.Proper) : x.Behaves R m :=
  ⟨.of_silent hsilent (fun m' hm' => (hends m' hm').store.seals) hfails, hends⟩

theorem of_done {a : α} (hsilent : x.moments m = []) (hrun : x m = .done a m')
    (hstep : m.Leaves R m') : x.Behaves R m := by
  refine of_silent hsilent ?_ ?_ <;> rw [hrun]
  · rintro _ ⟨⟩
    exact hstep
  · nofun

theorem of_failed (hsilent : x.moments m = []) (hrun : x m = .failed e m') (hstep : m.Leaves R m')
    (he : e.Proper) : x.Behaves R m := by
  refine of_silent hsilent ?_ ?_ <;> rw [hrun]
  · rintro _ ⟨⟩
    exact hstep
  · rintro _ _ ⟨⟩
    exact he

theorem of_resumes (hres : x.Resumes m y m') (hstep : m.Leaves R m') (hy : y.Behaves R m') :
    x.Behaves R m :=
  ⟨.of_resumes hres hstep.store.seals hy.toMinds, fun m'' hend =>
    hstep.trans (hy.ends m'' (hres.run ▸ hend))⟩

theorem bind (hx : x.Behaves R m)
    (hf : ∀ a m₁, x m = .done a m₁ → m.Leaves R m₁ → (f a).Behaves R m₁) :
    (x >>= f).Behaves R m := by
  have hstep : ∀ a m₁, x m = .done a m₁ → m.Leaves R m₁ := fun a m₁ hdone =>
    hx.ends m₁ (by rw [hdone]; rfl)
  refine ⟨hx.toMinds.bind fun a m₁ hdone => (hf a m₁ hdone (hstep a m₁ hdone)).toMinds, ?_⟩
  intro m' hend
  rcases machine?_bind hend with hfirst | ⟨a, m₁, hdone, hrest⟩
  · exact hx.ends m' hfirst
  · exact (hstep a m₁ hdone).trans ((hf a m₁ hdone (hstep a m₁ hdone)).ends m' hrest)

/-- A routine that is cleaned up after, on a machine that is changed first. -/
theorem ensuring {m₀ : Machine} {g : Machine → Machine} (hx : x.Behaves R m₀)
    (hstore : m₀.store = m.store) (hg : ∀ m', (g m').store = m'.store)
    (hends : ∀ m', m₀.Leaves R m' → m.Leaves R (g m')) (hres : y.Resumes m (x.ensuring g) m₀) :
    y.Behaves R m := by
  have hmoments : y.moments m = x.moments m₀ := hres.moments.trans (moments_ending x _ m₀)
  have hend : ∀ m', (y m).machine? = some m' → ∃ m₁, (x m₀).machine? = some m₁ ∧ m' = g m₁ :=
    fun m' hm' => machine?_ensuring (hres.run ▸ hm')
  refine ⟨⟨fun e m' hfailed => ?_, hmoments ▸ hx.moments, fun t m' h => ?_⟩, fun m' hm' => ?_⟩
  · obtain ⟨m₁, hrun, -⟩ := failed_of_ensuring (hres.run ▸ hfailed)
    exact hx.fails e m₁ hrun
  · -- The clean-up leaves the store alone.
    rw [← hstore]
    rcases h.of_inner hmoments hend with h | ⟨m₁, hm₁, rfl, rfl⟩
    · exact hx.comes t m' h
    · rw [hg]
      exact hx.comes _ m₁ (.ends hm₁)
  · obtain ⟨m₁, hm₁, rfl⟩ := hend m' hm'
    exact hends m₁ (hx.ends m₁ hm₁)

theorem withActivation (hx : x.Behaves R (m.push a)) :
    (Routine.withActivation a x).Behaves R m := by
  refine hx.ensuring (m := m) rfl ?_ ?_ (g := Machine.pop) (y := Routine.withActivation a x)
    ⟨rfl, by rw [Routine.withActivation, moments_on]⟩
  · intro m'
    rw [Machine.pop]
    split <;> rfl
  · intro m' hstep
    obtain ⟨b, rest, -, hpop, hrest⟩ := pop_of_tables hstep.tables
    rw [hpop]
    exact ⟨hstep.store, hstep.modules, hstep.builtins, hstep.roots, hrest⟩

end Behaves

end Routine

/-- What a routine may rely on about the tables that it binds names in. It outlasts every civil
routine. -/
structure Licence (R : TableId) where
  gives : Machine → Prop
  lasts : ∀ {m m' : Machine}, m.Leaves R m' → gives m → gives m'

namespace Licence

variable {R : TableId}

def none : Licence R := ⟨fun _ => True, fun _ => id⟩

def table (t : TableId) : Licence R := ⟨fun m => m.Open R t, fun hstep h => h.lasts hstep⟩

def owned (p : ModuleParts) : Licence R :=
  ⟨fun m => ∀ t, p.Owns t → m.Open R t, fun hstep h t ht => (h t ht).lasts hstep⟩

def head : Licence R :=
  ⟨fun m => m.HeadIn (m.Open R), fun {m m'} hstep h a' ha' t ht => by
    obtain ⟨a, ha, htables⟩ := hstep.running ha'
    have hscopes : a'.scopes = a.scopes := congrArg Prod.fst htables
    exact (h a ha t (hscopes ▸ ht)).lasts hstep⟩

def Opens (l : Licence R) (t : TableId) : Prop := ∀ m, l.gives m → m.Open R t

theorem opens_table (t : TableId) : (table t : Licence R).Opens t := fun _ => id

theorem opens_owned {p : ModuleParts} (ht : p.Owns t) :
    (owned p : Licence R).Opens t := fun _ h => h t ht

end Licence

namespace Routine

structure Civil {α : Type} {R : TableId} (l : Licence R) (x : Routine α) : Prop where
  behaves : ∀ m, m.Proper R → l.gives m → x.Behaves R m

namespace Civil

variable {α β : Type} {R : TableId} {l : Licence R} {x : Routine α} {f : α → Routine β}
  {name : String} {fault : Fault}

theorem pure (a : α) : (Pure.pure a : Routine α).Civil l := ⟨fun m hm _ =>
  .of_done (moments_pure a m) rfl (.refl hm)⟩

theorem fail (h : fault.Proper) : (Routine.fail fault : Routine α).Civil l :=
  ⟨fun _ hm _ => .of_failed (moments_quiet _ _) rfl (.refl hm) h⟩

theorem failWith (h : e.Proper) : (Routine.failWith e : Routine α).Civil l :=
  ⟨fun _ hm _ => .of_failed (moments_quiet _ _) rfl (.refl hm) h⟩

theorem outOfFuel : (Routine.outOfFuel : Routine α).Civil l :=
  ⟨fun m _ _ => .of_silent (moments_quiet _ m) nofun nofun⟩

theorem read (h : Machine → α) : (Routine.read h).Civil l := ⟨fun _ hm _ =>
  .of_done (moments_quiet _ _) rfl (.refl hm)⟩

theorem see (h : Store → α) : (Routine.see h).Civil l := ⟨fun _ hm _ =>
  .of_done (moments_quiet _ _) rfl (.refl hm)⟩

theorem note (e : Event) : (Routine.note e).Civil l := ⟨fun m hm _ =>
  .of_done (moments_quiet _ m) rfl (.of_same hm m.sink (e :: m.log) rfl)⟩

theorem writeLine (text : String) : (Routine.writeLine text).Civil l := by
  refine ⟨fun m hm _ => ?_⟩
  cases hsink : m.sink with
  | collecting lines =>
    refine .of_done (a := ()) (moments_quiet _ m) ?_
      (.of_same hm (.collecting ((text ++ "\n") :: lines)) m.log rfl)
    simp [Routine.writeLine, quiet, hsink]
  | broken reason =>
    refine .of_failed (moments_quiet _ m) (e := .fault (.closedSink reason)) ?_ (.refl hm) trivial
    simp [Routine.writeLine, quiet, hsink]

theorem touch {d : Deed} (hd : ∀ s e, d ≠ .leaves s e) : (Routine.touch d).Civil l := by
  refine ⟨fun m hm _ => ⟨⟨nofun, fun p hp => ?_, fun t m' h => ?_⟩, ?_⟩⟩
  · rw [moments_touch, List.mem_singleton] at hp
    subst hp
    exact ⟨hm, fun s e heq => absurd heq (hd s e)⟩
  · obtain ⟨rfl, rfl | rfl⟩ := h.of_touch
    · exact ⟨.refl R _, by simp⟩
    · exact ⟨.refl R _, List.forall_mem_singleton.mpr (.refl R _)⟩
  · rintro _ ⟨⟩
    exact .refl hm

theorem assign (c : CellId) (v : ObjectId) : (change (·.assign c v)).Civil l := ⟨fun m hm _ =>
  .of_done (moments_quiet _ m) rfl (.of_store (.assign hm.store c v))⟩

theorem alike {h : Store → Store} (hh : ∀ s : Store, s.Alike (h s)) : (change h).Civil l :=
  ⟨fun m hm _ => .of_done (moments_quiet _ m) rfl (.of_store (.of_alike hm.store (hh m.store)))⟩

theorem newCell (c : Cell) : (Routine.newCell c).Civil l := ⟨fun m hm _ =>
  .of_done (moments_quiet _ m) rfl (.of_store (.newCell hm.store c))⟩

theorem newObject {base : Option ObjectId} {kind : Kind} (hkind : kind.Proper R)
    (hembodied : ¬ kind.Definition) : (Routine.newObject base kind).Civil l := ⟨fun m hm _ =>
  .of_done (moments_quiet _ m) rfl (.of_store (.newObject hm.store hkind (absurd · hembodied)))⟩

theorem bind (hx : x.Civil l) (hf : ∀ a, (f a).Civil l) : (x >>= f).Civil l :=
  ⟨fun m hm hl => (hx.behaves m hm hl).bind fun a m₁ _ hstep =>
    (hf a).behaves m₁ (hstep.proper hm) (l.lasts hstep hl)⟩

theorem map (h : α → β) (hx : x.Civil l) : (h <$> x).Civil l := hx.bind fun a => .pure (h a)

theorem assoc {γ : Type} {h : β → Routine γ} (hx : (x >>= fun a => f a >>= h).Civil l) :
    ((x >>= f) >>= h).Civil l := ⟨fun m hm hl =>
  .of_resumes (.assoc x f h m) (.refl hm) (hx.behaves m hm hl)⟩

theorem bind_pure {a : α} (hf : (f a).Civil l) : ((Pure.pure a : Routine α) >>= f).Civil l :=
  ⟨fun m hm hl => .of_resumes (.bind rfl (moments_pure a m)) (.refl hm) (hf.behaves m hm hl)⟩

theorem bind_fail (h : fault.Proper) :
    ((Routine.fail fault : Routine α) >>= f).Civil l := by
  refine ⟨fun m hm _ => .of_failed ?_ rfl (.refl hm) h⟩
  rw [moments_bind]
  exact List.append_nil _ ▸ moments_quiet _ m

/-- What is read off a proper store is known to be so. -/
theorem bind_see {h : Store → α} {P : α → Prop}
    (hP : ∀ (root : ObjectId) (s : Store), s.Proper R root → P (h s))
    (hf : ∀ a, P a → (f a).Civil l) : (Routine.see h >>= f).Civil l :=
  ⟨fun m hm hl => .of_resumes (.bind rfl (moments_quiet _ m)) (.refl hm)
    ((hf _ (hP _ _ hm.store)).behaves m hm hl)⟩

theorem bind_peek (i : Nat) {f : Activation → Routine β}
    (hf : ∀ a, a.Proper R → (f a).Civil l) : (Routine.peek i >>= f).Civil l := by
  refine ⟨fun m hm hl => ?_⟩
  rcases bind_peek_cases i f m with ⟨a, ha, hres⟩ | ⟨hrun, hmoments⟩
  · exact .of_resumes hres (.refl hm)
      ((hf a (hm.stack a (List.mem_of_getElem? ha))).behaves m hm hl)
  · exact .of_failed hmoments hrun (.refl hm) trivial

theorem peek (i : Nat) : (Routine.peek i).Civil l := by
  refine ⟨fun m hm hl => ?_⟩
  have h := (bind_peek (l := l) i (f := Pure.pure) fun a _ => .pure a).behaves m hm hl
  refine .of_resumes ⟨?_, ?_⟩ (.refl hm) h
  · rw [bind_run]
    cases Routine.peek i m <;> rfl
  · rw [moments_bind, show (Routine.peek i).moments m = [] from moments_quiet _ m]
    cases Routine.peek i m <;> simp

/-- An error that is caught is a proper one. -/
theorem bind_attempt (hx : x.Civil l) {f : Except Error α → Routine β}
    (hf : ∀ r, (∀ e, r = .error e → e.Proper) → (f r).Civil l) :
    (Routine.attempt x >>= f).Civil l := by
  refine ⟨fun m hm hl => ?_⟩
  have hb := hx.behaves m hm hl
  have hattempt : (Routine.attempt x).Behaves R m := by
    refine ⟨⟨fun e m' hfailed => absurd hfailed (attempt_ne_failed x m e m'), ?_, ?_⟩, ?_⟩
    · rw [Routine.attempt, moments_ending]
      exact hb.moments
    · exact fun t m' h => hb.comes t m' h.attempt
    · exact fun m' hend => hb.ends m' (machine?_attempt x m ▸ hend)
  refine hattempt.bind fun r m₁ hdone hstep => ?_
  refine (hf r ?_).behaves m₁ (hstep.proper hm) (l.lasts hstep hl)
  rintro e rfl
  rcases done_of_attempt hdone with ⟨a, ⟨⟩, -⟩ | ⟨_, ⟨⟩, hrun⟩
  exact hb.fails e m₁ hrun

/-- What is told of a failure, and what becomes of its error, is proper if the error was. -/
theorem onError {deed : Error → Deed} {g : Error → Error} (hx : x.Civil l)
    (hg : ∀ e, e.Proper → (g e).Proper) (hdeed : ∀ e s e', deed e = .leaves s e' → e' = e) :
    (x.onError deed g).Civil l := by
  refine ⟨fun m hm hl => ?_⟩
  have hb := hx.behaves m hm hl
  refine ⟨⟨fun e m' hfailed => ?_, fun p hp => ?_, fun t m' h => ?_⟩, fun m' hend =>
    hb.ends m' (machine?_onError x deed g m ▸ hend)⟩
  · obtain ⟨e', hrun, rfl⟩ := failed_of_onError hfailed
    exact hg e' (hb.fails e' m' hrun)
  · rcases mem_onError hp with hp | ⟨e, m₁, hrun, rfl⟩
    · exact hb.moments p hp
    · refine ⟨(hb.ends m₁ (by rw [hrun]; rfl)).proper hm, fun s e' hleaves => ?_⟩
      rw [hdeed e s e' hleaves]
      exact hb.fails e m₁ hrun
  · rcases h.onError with h | ⟨e, hrun, rfl⟩
    · exact hb.comes t m' h
    · obtain ⟨hseals, hpassed⟩ := hb.comes _ m' (.ends (by rw [hrun]; rfl))
      exact ⟨hseals, List.forall_mem_append.mpr
        ⟨hpassed, List.forall_mem_singleton.mpr (.refl R _)⟩⟩

/-- An error that leaves a statement is a proper one. -/
theorem leaving (hx : x.Civil l) (s : Statement) (text : String) :
    (x.onError (.leaves s) (·.leaving text)).Civil l := by
  refine hx.onError (fun e he => he.leaving text) ?_
  rintro e _ _ ⟨⟩
  rfl

theorem doing (hx : x.Civil l) (t : Task) : (x.doing t).Civil l := by
  rw [doing_eq]
  refine hx.onError (fun e he => he) ?_
  rintro e _ _ ⟨⟩

theorem forM {h : α → Routine Unit} (as : List α) (hh : ∀ a ∈ as, (h a).Civil l) :
    (as.forM h).Civil l := by
  induction as with
  | nil => exact .pure ()
  | cons a rest ih =>
    exact (hh a (List.mem_cons_self ..)).bind fun _ =>
      ih fun a' ha' => hh a' (List.mem_cons_of_mem _ ha')

section Tables

/-- A name is bound in a table that takes it and that no module has sealed. -/
theorem define_of (c : CellId) (h : ∀ m, m.Proper R → l.gives m → t ≠ R ∧ ¬ m.store.Sealed R t ∧
      (m.store.rule t).accepts name = true) : (Routine.define t name c).Civil l := by
  refine ⟨fun m hm hl => ?_⟩
  obtain ⟨hne, hunsealed, haccepts⟩ := h m hm hl
  rcases define_cases t name c m with ⟨hrefusal, hrun⟩ | ⟨fault, hrefusal, hrun⟩
  · refine .of_done (moments_quiet _ m) hrun (.of_store ?_)
    by_cases hholds : m.store.Holds t
    · exact .bind hm.store hholds hne hunsealed hrefusal c
    · rw [bind_eq_self hholds]
      exact .refl hm.store
  · refine .of_failed (moments_quiet _ m) hrun (.refl hm) ?_
    -- The name has the form that the rule asks for, so that it is taken already.
    obtain ⟨hinvalid, -⟩ | rfl := Store.fault_of_refusal? hrefusal
    · simp [haccepts] at hinvalid
    · trivial

theorem define (ht : l.Opens t) (hname : NameRule.symbol.accepts name = true) (c : CellId) :
    (Routine.define t name c).Civil l :=
  define_of c fun m hm hl => by
    obtain ⟨hplain, -, hunsealed⟩ := ht m hl
    exact ⟨hplain.2, hunsealed, by rw [hm.store.rules t hplain, hname]⟩

/-- A part of an object may always get names. -/
theorem definePart (o : ObjectId) {p : Part} (hname : p.rule.accepts name = true) (c : CellId) :
    (Routine.define (.part o p) name c).Civil l :=
  define_of c fun m hm _ => ⟨hm.store.part_ne_registry o p, hm.store.part_unsealed o p, by
    rw [m.store.rule_part, hname]⟩

theorem defineConst (ht : l.Opens t) (hname : NameRule.symbol.accepts name = true) (v : ObjectId) :
    (Routine.defineConst t name v).Civil l := (newCell _).bind fun c => define ht hname c

theorem declare (hname : NameRule.symbol.accepts name = true) (c : CellId) :
    (Routine.declare name c).Civil (.head : Licence R) := by
  refine ⟨fun m hm hhead => ?_⟩
  rcases bind_peek_cases 0 (defineLocal · name c) m with ⟨a, ha, hres⟩ | ⟨hrun, hmoments⟩
  · refine .of_resumes hres (.refl hm) ?_
    rw [defineLocal]
    split
    · next t outer hscopes =>
      have hopen : m.Open R t :=
        hhead a (List.head?_eq_getElem? ▸ ha) t (by rw [hscopes]; rfl)
      exact (define (Licence.opens_table t) hname c).behaves m hm hopen
    · exact .of_failed (moments_quiet _ m) rfl (.refl hm) trivial
  · exact .of_failed hmoments hrun (.refl hm) trivial

/-- The rest may bind names in the new table. -/
theorem bind_newTable {f : TableId → Routine β}
    (hf : ∀ t, t.Plain R → (f t).Civil (.table t : Licence R)) :
    (Routine.newTable >>= f).Civil l := by
  refine ⟨fun m hm _ => ?_⟩
  have hstep : m.Leaves R m.tabled :=
    .of_store (.newTable hm.store .empty rfl rfl (by simp [Table.empty]))
  have hne : TableId.free m.store.tables.size ≠ R := by
    intro heq
    have hholds := hm.store.registry.holds
    rw [← heq] at hholds
    exact Nat.lt_irrefl _ hholds
  refine .of_resumes (.bind rfl (moments_quiet _ m)) hstep ?_
  refine (hf _ ⟨⟨_, rfl⟩, hne⟩).behaves _ (hstep.proper hm) ?_
  refine hstep.opens hm ⟨⟨_, rfl⟩, hne⟩ (Nat.lt_irrefl _) ?_ ?_
  · change _ < (m.store.newTable .empty).2.tables.size
    simp
  · change (m.store.newTable .empty).2.bindings R = m.store.bindings R
    rw [Store.bindings_newTable, if_neg hne.symm]

theorem bind_capture (ha : a.Proper R) {f : Activation → Routine β}
    (hf : ∀ copy, copy.Proper R → (f copy).Civil l) :
    (make (·.captureActivation a) >>= f).Civil l := by
  refine ⟨fun m hm hl => ?_⟩
  obtain ⟨hleaves, hcopy⟩ := Store.captureActivation_leaves hm.store ha
  have hstep : m.Leaves R { m with store := (m.store.captureActivation a).2 } := .of_store hleaves
  exact .of_resumes (.bind rfl (moments_quiet _ m)) hstep
    ((hf _ hcopy).behaves _ (hstep.proper hm) (l.lasts hstep hl))

end Tables

section Activations

/-- The rest may bind names in the innermost scope of the new activation. -/
theorem bind_newActivation {owner : ObjectId} {home : Option TableId}
    (hhome : ∀ t, home = some t → t.Plain R) {f : Activation → Routine β}
    (hf : ∀ a t rest, a.Proper R → a.scopes = t :: rest →
      (f a).Civil (.table t : Licence R)) :
    (Routine.newActivation owner name home >>= f).Civil l := by
  refine assoc (bind_newTable fun t ht => assoc ⟨fun m hm hl => ?_⟩)
  refine .of_resumes (.bind rfl (moments_quiet _ m)) (.refl hm) ?_
  cases home with
  | none =>
    refine (bind_pure (hf _ t [m.builtins] ⟨?_, ht⟩ rfl)).behaves m hm hl
    intro x hx
    rcases List.mem_cons.mp hx with rfl | hx
    · exact ht
    · rw [List.mem_singleton.mp hx]
      exact hm.builtins
  | some home =>
    refine (bind_pure (hf _ t [home, m.builtins] ⟨?_, hhome home rfl⟩ rfl)).behaves m hm hl
    intro x hx
    rcases List.mem_cons.mp hx with rfl | hx
    · exact ht
    · rcases List.mem_cons.mp hx with rfl | hx
      · exact hhome x rfl
      · rw [List.mem_singleton.mp hx]
        exact hm.builtins

theorem withActivation (ha : a.Proper R) (hx : x.Civil (.none : Licence R)) :
    (Routine.withActivation a x).Civil l := ⟨fun m hm _ =>
  .withActivation (hx.behaves (m.push a) (hm.push ha) trivial)⟩

/-- Only what activations note is changed. -/
theorem modifyTop {h : Activation → Activation} (hh : ∀ a, (h a).tables = a.tables) :
    (Routine.modify (·.modifyTop h)).Civil l := by
  refine ⟨fun m hm _ => .of_done (moments_quiet _ m) rfl ?_⟩
  change m.Leaves R (m.modifyTop h)
  cases hstack : m.stack with
  | nil =>
    rw [show m.modifyTop h = m by simp [Machine.modifyTop, hstack]]
    exact .refl hm
  | cons a rest =>
    rw [modifyTop_eq hstack]
    exact .of_same hm m.sink m.log (by rw [hstack, List.map_cons, List.map_cons, hh])

/-- A scope that may be bound in is the innermost one for the routine that runs in it. -/
theorem withScope (ht : l.Opens t) (hx : x.Civil (.head : Licence R)) :
    (Routine.withScope t x).Civil l := by
  refine ⟨fun m hm hl => ?_⟩
  have hopen := ht m hl
  rcases bind_peek_cases 0 (fun _ => modify (·.modifyTop (·.pushScope t)) >>= fun _ =>
    x.ensuring (·.modifyTop Activation.popScope)) m with ⟨a, ha, hres⟩ | ⟨hrun, hmoments⟩
  · obtain ⟨rest, hstack⟩ := List.head?_eq_some_iff.mp (List.head?_eq_getElem? ▸ ha)
    have hm₀ : ({ m with stack := a.pushScope t :: rest } : Machine).Proper R := by
      have hproper := hm.stack
      rw [hstack, List.forall_mem_cons] at hproper
      exact ⟨hm.store, hm.modules, hm.builtins, List.forall_mem_cons.mpr
        ⟨⟨List.forall_mem_cons.mpr ⟨hopen.1, hproper.1.scopes⟩, hproper.1.home⟩, hproper.2⟩⟩
    have hhead : (Licence.head : Licence R).gives { m with stack := a.pushScope t :: rest } := by
      rintro b ⟨⟩ t' ⟨⟩
      exact hopen
    refine (hx.behaves _ hm₀ hhead).ensuring (m := m) rfl ?_ ?_
      (g := (·.modifyTop Activation.popScope)) (hres.trans (inScope_resumes t x hstack))
    · intro m'
      rw [Machine.modifyTop]
      split <;> rfl
    · intro m' hstep
      obtain ⟨b, rest', -, hclosed, -, htables⟩ := closeScope_of_tables hstack hstep.tables
      rw [hclosed]
      exact ⟨hstep.store, hstep.modules, hstep.builtins, hstep.roots, htables⟩
  · exact .of_failed hmoments hrun (.refl hm) trivial

end Activations

end Civil

end Routine

end ObjectLang
