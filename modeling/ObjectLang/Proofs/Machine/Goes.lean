import ObjectLang.Proofs.Machine.Chain

/-!
How a routine goes: the judgement that every part of the evaluator is shown to meet.
A routine that goes well takes a path, gives the call stack back as it found it, and either gives a
value with what is asked of it or fails with an error that is rightly wrapped. There is one rule for
each way of putting routines together.
-/
namespace ObjectLang

/-- An activation with more names to export. Only the activation of a module takes such names. -/
def Activation.Extends (s : Store) (a b : Activation) : Prop :=
  ∃ extra, b = { a with notes := a.notes ++ extra } ∧ (∀ x ∈ extra, x.1 = exportKey) ∧
    (extra = [] ∨ ∃ parts, s.kind a.owner = .ofModule parts)

/-- The call stack is the same list of activations with the same scopes. The running activation may
have recorded names to export. -/
inductive KeptStack (s : Store) : List Activation → List Activation → Prop where
  | empty : KeptStack s [] []
  | running {a b : Activation} (rest : List Activation) (h : a.Extends s b) :
      KeptStack s (a :: rest) (b :: rest)

namespace KeptStack

variable {s s' : Store} {l l' l'' : List Activation}

theorem refl (s : Store) (l : List Activation) : KeptStack s l l := by
  cases l with
  | nil => exact .empty
  | cons a rest => exact .running rest ⟨[], by simp, by simp, Or.inl rfl⟩

theorem trans (h : KeptStack s l l') (h' : KeptStack s' l' l'') (hg : s.Grows s') :
    KeptStack s' l l'' := by
  cases h with
  | empty => exact h'
  | running rest h =>
    obtain ⟨extra, rfl, hkeys, howner⟩ := h
    cases h' with
    | running _ h' =>
      obtain ⟨extra', rfl, hkeys', howner'⟩ := h'
      refine .running rest ⟨extra ++ extra', by simp, ?_, ?_⟩
      · intro x hx
        rcases List.mem_append.mp hx with hx | hx
        · exact hkeys x hx
        · exact hkeys' x hx
      · rcases howner with rfl | ⟨parts, hparts⟩
        · simpa using howner'
        · exact Or.inr ⟨parts, hg.kind_of_ne hparts (by simp)⟩

end KeptStack

/-- The error is a bare fault, or a fault with the text of the first statement that it left; since
then it only left the statements around that one. -/
inductive Stock.Fails (W : Stock) : List Moment → Error → Prop where
  | bare {t : List Moment} {f : Fault} (hf : W.fault f) : Fails W t (.fault f)
  | wrapped {t₁ t₂ : List Moment} {p : Moment} {st : Statement} {f : Fault} (hf : W.fault f)
      (hst : W.statement st) (hp : p.deed = .leaves st (.fault f))
      (hrest : ∀ q ∈ t₂, ∃ outer, q.deed = .leaves outer (.fatal (.fault f) st.text)) :
      Fails W (t₁ ++ p :: t₂) (.fatal (.fault f) st.text)

variable {t : List Moment} {e : Error} {st : Statement}

theorem Stock.Fails.prepend {W : Stock} (h : W.Fails t e) (before : List Moment) :
    W.Fails (before ++ t) e := by
  cases h with
  | bare hf => exact .bare hf
  | wrapped hf hst hp hrest =>
    rw [← List.append_assoc]
    exact .wrapped hf hst hp hrest

theorem Stock.Fails.of_fault {W : Stock} {f : Fault} (h : W.Fails t e) (he : e = .fault f) :
    W.fault f := by
  cases h with
  | bare hf =>
    cases he
    exact hf
  | wrapped => cases he

theorem Stock.Fails.leaving {W : Stock} (h : W.Fails t e) (hst : W.statement st) (m : Machine) :
    W.Fails (t ++ [⟨.leaves st e, m⟩]) (e.leaving st.text) := by
  cases h with
  | bare hf => exact .wrapped hf hst rfl (by simp)
  | wrapped hf hinner hp hrest =>
    rw [List.append_assoc, List.cons_append]
    refine .wrapped hf hinner hp ?_
    intro q hq
    rcases List.mem_append.mp hq with hq | hq
    · exact hrest q hq
    · rw [List.mem_singleton.mp hq]
      exact ⟨st, rfl⟩

namespace Machine

/-- Where a routine that goes well leaves the machine. -/
structure Reached (W : Stock) (n : Nat) (m m' : Machine) : Prop extends Onward W n m m' where
  kept : KeptStack m'.store m.stack m'.stack

namespace Reached

variable {W : Stock} {n : Nat} {m m' m'' : Machine}

theorem refl (h : m.Sound W) : Reached W n m m := ⟨.refl h, .refl _ _⟩

variable (h : Reached W n m m')
include h

theorem trans (h' : Reached W n m' m'') : Reached W n m m'' :=
  ⟨h.toOnward.trans h'.toOnward, h.kept.trans h'.kept h'.grows⟩

theorem sizes : m.store.SizeLe m'.store := h.grows.sizes

end Reached

theorem Ready.push {W : Stock} {n : Nat} {m : Machine} (h : Ready W n m) {a : Activation}
    (ha : a.Fits m.store) : Ready W n (m.push a) :=
  ((Move.push ha).onward h).ready h

end Machine

namespace Routine

open Machine

variable {α β : Type} {W : Stock} {n : Nat} {m : Machine}

/-- Every outcome of the routine is as it should be. -/
@[irreducible] def Goes (W : Stock) (n : Nat) (x : Routine α) (m : Machine)
    (Q : α → List Moment → Store → Prop) : Prop :=
  match x m with
  | .done a m' =>
    Path W n m (x.moments m) m' ∧ KeptStack m'.store m.stack m'.stack ∧ Q a (x.moments m) m'.store
  | .failed e m' =>
    Path W n m (x.moments m) m' ∧ KeptStack m'.store m.stack m'.stack ∧ W.Fails (x.moments m) e
  | .exhausted => ∃ m', Path W n m (x.moments m) m'

abbrev Delivers (W : Stock) (n : Nat) (x : Routine ObjectId) (m : Machine) : Prop :=
  x.Goes W n m fun v _ s => s.HasObject v

namespace Goes

variable {x y : Routine α} {f : α → Routine β} {Q Q' : α → List Moment → Store → Prop}
  {R : β → List Moment → Store → Prop} {m' m₁ : Machine} {name : String} {a : α} {fault : Fault}
  {v : ObjectId} {c : CellId} {k : Nat}

theorem of_done (hrun : x m = .done a m') (hpath : Path W n m (x.moments m) m')
    (hkept : KeptStack m'.store m.stack m'.stack) (hQ : Q a (x.moments m) m'.store) :
    x.Goes W n m Q := by
  rw [Goes, hrun]
  exact ⟨hpath, hkept, hQ⟩

/-- What a routine goes like, told by how it ends. -/
theorem of_ended (hend : ∀ m', (x m).machine? = some m' →
      Path W n m (x.moments m) m' ∧ KeptStack m'.store m.stack m'.stack)
    (hdone : ∀ a m', x m = .done a m' → Q a (x.moments m) m'.store)
    (hfailed : ∀ e m', x m = .failed e m' → W.Fails (x.moments m) e)
    (hpath : ∃ m', Path W n m (x.moments m) m') : x.Goes W n m Q := by
  rw [Goes]
  cases hrun : x m with
  | done a m' =>
    obtain ⟨hpath, hkept⟩ := hend m' (by rw [hrun]; rfl)
    exact ⟨hpath, hkept, hdone a m' hrun⟩
  | failed e m' =>
    obtain ⟨hpath, hkept⟩ := hend m' (by rw [hrun]; rfl)
    exact ⟨hpath, hkept, hfailed e m' hrun⟩
  | exhausted => exact hpath

section

variable (h : x.Goes W n m Q)
include h

theorem done (hrun : x m = .done a m') :
    Path W n m (x.moments m) m' ∧ KeptStack m'.store m.stack m'.stack ∧
      Q a (x.moments m) m'.store := by
  rwa [Goes, hrun] at h

theorem failed (hrun : x m = .failed e m') :
    Path W n m (x.moments m) m' ∧ KeptStack m'.store m.stack m'.stack ∧
      W.Fails (x.moments m) e := by
  rwa [Goes, hrun] at h

theorem exhausted (hrun : x m = .exhausted) : ∃ m', Path W n m (x.moments m) m' := by
  rwa [Goes, hrun] at h

/-- However the routine ends, it took a path and gave the call stack back. -/
theorem ended (hend : (x m).machine? = some m') :
    Path W n m (x.moments m) m' ∧ KeptStack m'.store m.stack m'.stack := by
  cases hrun : x m with
  | done a m₁ =>
    rw [hrun] at hend
    cases hend
    exact ⟨(h.done hrun).1, (h.done hrun).2.1⟩
  | failed e m₁ =>
    rw [hrun] at hend
    cases hend
    exact ⟨(h.failed hrun).1, (h.failed hrun).2.1⟩
  | exhausted =>
    rw [hrun] at hend
    cases hend

theorem path : ∃ m', Path W n m (x.moments m) m' := by
  cases hrun : x m with
  | done a m' => exact ⟨m', (h.done hrun).1⟩
  | failed e m' => exact ⟨m', (h.failed hrun).1⟩
  | exhausted => exact h.exhausted hrun

omit h in
theorem reached (hm : Ready W n m) (hpath : Path W n m t m')
    (hkept : KeptStack m'.store m.stack m'.stack) : Reached W n m m' :=
  ⟨hpath.onward hm, hkept⟩

theorem mono (hQ : ∀ a t s, Q a t s → Q' a t s) : x.Goes W n m Q' :=
  of_ended (fun _ => h.ended) (fun a _ hrun => hQ a _ _ (h.done hrun).2.2)
    (fun _ _ hrun => (h.failed hrun).2.2) h.path

theorem weaken (hk : k ≤ n) : x.Goes W k m Q :=
  of_ended (fun _ hend => (h.ended hend).imp_left (·.mono hk)) (fun _ _ hrun => (h.done hrun).2.2)
    (fun _ _ hrun => (h.failed hrun).2.2) (h.path.imp fun _ hpath => hpath.mono hk)

/-- The path itself may be asked for. -/
theorem along : x.Goes W n m fun a t s => Q a t s ∧ ∃ m', m'.store = s ∧ Path W n m t m' :=
  of_ended (fun _ => h.ended) (fun _ m' hrun => ⟨(h.done hrun).2.2, m', rfl, (h.done hrun).1⟩)
    (fun _ _ hrun => (h.failed hrun).2.2) h.path

/-- What is known of its runs holds as well. -/
theorem ran {P : α → List Moment → Prop} (hP : ∀ a m', x m = .done a m' → P a (x.moments m)) :
    x.Goes W n m fun a t s => Q a t s ∧ P a t :=
  of_ended (fun _ => h.ended) (fun a m' hrun => ⟨(h.done hrun).2.2, hP a m' hrun⟩)
    (fun _ _ hrun => (h.failed hrun).2.2) h.path

/-- The store grows and stays wellformed. -/
theorem grown (hm : Ready W n m) :
    x.Goes W n m fun a t s => Q a t s ∧ m.store.Grows s ∧ s.Wellformed W := by
  refine h.along.mono ?_
  rintro a t s ⟨hQ, m', rfl, hpath⟩
  have honward := hpath.onward hm
  exact ⟨hQ, honward.grows, honward.sound.store.toWellformed⟩

end

/-- What is older than `k` is left alone. -/
theorem below (h : x.Goes W k m Q) (hm : Ready W k m) (hn : n ≤ k) :
    x.Goes W n m fun a t s => Q a t s ∧
      (∀ o : ObjectId, o.index < k → s.object o = m.store.object o) ∧
      ∀ l : ObjectId, l.index < k → fieldSteps l t = [] := by
  refine (h.along.weaken hn).mono ?_
  rintro a t s ⟨hQ, m', rfl, hpath⟩
  exact ⟨hQ, (hpath.onward hm).intact, fun l hl => hpath.fieldSteps_old hl⟩

/-- What is older than the machine is left alone. -/
theorem old (h : x.Goes W m.store.objects.size m Q) (hm : Ready W n m) :
    x.Goes W n m fun a t s => Q a t s ∧
      (∀ o, m.store.HasObject o → s.object o = m.store.object o) ∧
      ∀ l, m.store.HasObject l → fieldSteps l t = [] :=
  h.below ⟨hm.sound, Nat.le_refl _⟩ hm.bound

/-- What is not there in the end had no field initialised. -/
theorem unborn (h : x.Goes W n m Q) (hm : Ready W n m) :
    x.Goes W n m fun a t s => Q a t s ∧ ∀ l, ¬ s.HasObject l → fieldSteps l t = [] := by
  refine h.along.mono ?_
  rintro a t s ⟨hQ, m', rfl, hpath⟩
  exact ⟨hQ, fun l hl => hpath.fieldSteps_unborn hm hl⟩

/-- A routine that does as another one does from further on, with the call stack given back. -/
theorem of_rest (hpath : Path W n m t m₁) (hrun : x m = y m₁)
    (htrace : x.moments m = t ++ y.moments m₁) (hy : y.Goes W n m₁ fun a u s => Q a (t ++ u) s)
    (hkept : ∀ m', Path W n m₁ (y.moments m₁) m' → KeptStack m'.store m₁.stack m'.stack →
      KeptStack m'.store m.stack m'.stack) : x.Goes W n m Q := by
  refine of_ended (fun m' hend => ?_) (fun a m' hdone => ?_) (fun e m' hfailed => ?_) ?_
  · obtain ⟨hpath', hkept'⟩ := hy.ended (hrun ▸ hend)
    rw [htrace]
    exact ⟨hpath.trans hpath', hkept m' hpath' hkept'⟩
  · rw [htrace]
    exact (hy.done (hrun ▸ hdone)).2.2
  · rw [htrace]
    exact (hy.failed (hrun ▸ hfailed)).2.2.prepend t
  · rw [htrace]
    exact hy.path.imp fun _ => hpath.trans

/-- A routine that goes well from where another one ended. -/
theorem chain (hm : Ready W n m) (hrun : x m = .done a m') (hpath : Path W n m (x.moments m) m')
    (hkept : KeptStack m'.store m.stack m'.stack)
    (hf : (f a).Goes W n m' fun b t s => R b (x.moments m ++ t) s) : (x >>= f).Goes W n m R := by
  have hready := (reached hm hpath hkept).ready hm
  refine of_rest hpath (bind_run_done hrun) (moments_bind_done hrun) hf fun m'' hpath' hkept' => ?_
  exact hkept.trans hkept' (reached hready hpath' hkept').grows

theorem bind (hm : Ready W n m) (hx : x.Goes W n m Q)
    (hf : ∀ a t m', Reached W n m m' → Q a t m'.store →
      (f a).Goes W n m' fun b u s => R b (t ++ u) s) : (x >>= f).Goes W n m R := by
  cases hrun : x m with
  | done a m' =>
    obtain ⟨hpath, hkept, hQ⟩ := hx.done hrun
    exact chain hm hrun hpath hkept (hf a _ m' (reached hm hpath hkept) hQ)
  | failed e m' =>
    have hbind : (x >>= f) m = .failed e m' := by rw [bind_run, hrun]
    have htrace : (x >>= f).moments m = x.moments m := by rw [moments_bind, hrun, List.append_nil]
    rw [Goes, hbind, htrace]
    exact hx.failed hrun
  | exhausted =>
    have hbind : (x >>= f) m = .exhausted := by rw [bind_run, hrun]
    have htrace : (x >>= f).moments m = x.moments m := by rw [moments_bind, hrun, List.append_nil]
    rw [Goes, hbind, htrace]
    exact hx.exhausted hrun

theorem pure (hQ : Q a [] m.store) : (Pure.pure a : Routine α).Goes W n m Q := by
  refine of_done rfl ?_ (.refl _ _) ?_
  · rw [moments_pure]
    exact .stay m
  · rw [moments_pure]
    exact hQ

theorem map (hm : Ready W n m) {g : α → β} (hx : x.Goes W n m Q)
    (hR : ∀ a t s, Q a t s → R (g a) t s) : (g <$> x).Goes W n m R := by
  refine bind hm hx fun a t m' _ hQ => pure ?_
  rw [List.append_nil]
  exact hR a t _ hQ

/-- A failure on the spot. -/
theorem of_failed (hrun : x m = .failed (.fault fault) m) (hmoments : x.moments m = [])
    (hf : W.fault fault) : x.Goes W n m Q := by
  rw [Goes, hrun, hmoments]
  exact ⟨.stay m, .refl _ _, .bare hf⟩

theorem fail (hf : W.fault fault) : (Routine.fail fault : Routine α).Goes W n m Q :=
  of_failed rfl (moments_quiet _ m) hf

/-- A single silent move that leaves the call stack alone. -/
theorem of_move (hrun : x m = .done a m') (hmoments : x.moments m = []) (hmove : Move W n m m')
    (hstack : m'.stack = m.stack) (hQ : Q a [] m'.store) :
    x.Goes W n m Q := by
  refine of_done hrun ?_ ?_ (hmoments ▸ hQ)
  · rw [hmoments]
    exact .single hmove
  · rw [hstack]
    exact .refl _ _

/-- A routine that does as another one does from a little further on. -/
theorem of_later (hpath : Path W n m t m₁) (hstack : m₁.stack = m.stack) (hrun : x m = y m₁)
    (htrace : x.moments m = t ++ y.moments m₁) (hy : y.Goes W n m₁ fun a u s => Q a (t ++ u) s) :
    x.Goes W n m Q := by
  refine of_rest hpath hrun htrace hy fun m' _ hkept => ?_
  rwa [← hstack]

/-- A routine that only reads the machine may be left out. -/
theorem bind_reader (hrun : x m = .done a m) (hmoments : x.moments m = [])
    (hf : (f a).Goes W n m R) : (x >>= f).Goes W n m R := by
  have htrace := moments_bind_done (f := f) hrun
  rw [hmoments] at htrace
  exact of_rest (.stay m) (bind_run_done hrun) htrace hf fun _ _ hkept => hkept

theorem assoc {γ : Type} {g : β → Routine γ} {P : γ → List Moment → Store → Prop}
    (h : (x >>= fun a => f a >>= g).Goes W n m P) : ((x >>= f) >>= g).Goes W n m P := by
  rw [Goes] at h ⊢
  rwa [run_assoc, moments_assoc]

theorem unassoc {γ : Type} {g : β → Routine γ} {P : γ → List Moment → Store → Prop}
    (h : ((x >>= f) >>= g).Goes W n m P) : (x >>= fun a => f a >>= g).Goes W n m P := by
  rw [Goes] at h ⊢
  rwa [← run_assoc, ← moments_assoc]

theorem bind_failed (hrun : x m = .failed (.fault fault) m) (hmoments : x.moments m = [])
    (hf : W.fault fault) : (x >>= f).Goes W n m R := by
  refine of_failed (by rw [bind_run, hrun]) ?_ hf
  rw [moments_bind, hrun, hmoments]
  rfl

theorem bind_see {g : Store → α} (hf : (f (g m.store)).Goes W n m R) :
    (see g >>= f).Goes W n m R := bind_reader rfl (moments_quiet _ m) hf

theorem bind_read {g : Machine → α} (hf : (f (g m)).Goes W n m R) :
    (read g >>= f).Goes W n m R := bind_reader rfl (moments_quiet _ m) hf

/-- An activation that is not there is a fault of the machine. -/
theorem bind_peek {i : Nat} {f : Activation → Routine β}
    (hf : ∀ a, m.stack[i]? = some a → (f a).Goes W n m R) : (peek i >>= f).Goes W n m R := by
  cases ha : m.stack[i]? with
  | some a =>
    have hrun : peek i m = .done a m := by simp [peek, quiet, ha]
    exact bind_reader hrun (moments_quiet _ m) (hf a ha)
  | none =>
    have hrun : peek i m = .failed (.fault (.noActivation i)) m := by simp [peek, quiet, ha]
    exact bind_failed hrun (moments_quiet _ m) (W.own _ (by simp))

/-- A deed that changes nothing by itself. -/
theorem bind_touch {d : Deed} {f : Unit → Routine β} (h : Moment.Honest W n ⟨d, m⟩)
    (hafter : Moment.after ⟨d, m⟩ = m)
    (hf : (f ()).Goes W n m fun b t s => R b (⟨d, m⟩ :: t) s) : (touch d >>= f).Goes W n m R := by
  have hpath : Path W n m [⟨d, m⟩] m := by
    have hmoment := Path.moment h
    rwa [hafter] at hmoment
  refine of_later (y := f ()) hpath rfl rfl ?_ hf
  rw [moments_bind_done rfl, moments_touch]

theorem note (e : Event) : (Routine.note e).Goes W n m fun _ _ s => s = m.store :=
  of_move rfl (moments_quiet _ m) (.note e) rfl rfl

theorem writeLine (text : String) :
    (Routine.writeLine text).Goes W n m fun _ _ s => s = m.store := by
  cases hsink : m.sink with
  | collecting lines =>
    refine of_move (a := ()) ?_ (moments_quiet _ m) (.print text hsink) rfl rfl
    simp [Routine.writeLine, quiet, hsink]
  | broken reason =>
    refine of_failed ?_ (moments_quiet _ m) (W.own (.closedSink reason) (by simp))
    simp [Routine.writeLine, quiet, hsink]

theorem newCell {c : Cell} (hfits : c.Fits m.store)
    (hview : ∀ x, c = .view x → ¬ m.store.IsField x) :
    (Routine.newCell c).Goes W n m fun i t s =>
      t = [] ∧ s = (m.store.newCell c).2 ∧ i = ⟨m.store.cells.size⟩ :=
  of_move rfl (moments_quiet _ m) (.cell hfits hview) rfl ⟨rfl, rfl, rfl⟩

theorem newTable : (Routine.newTable).Goes W n m fun i t s => t = [] ∧ s.HasTable i :=
  of_move rfl (moments_quiet _ m) .table rfl ⟨rfl, _, rfl, by simp⟩

/-- A new name in a table other than a field table. -/
theorem define {t : TableId} (ht : m.store.Holds t) (hfield : ∀ o, t ≠ .part o .fields)
    (hnew : ∀ o p, t = .part o p → n ≤ o.index) (hc : m.store.Shareable c)
    (htakes : m.store.Takes t name) (hstill : ∀ i, t = .free i → (m.store.cell c).Still) :
    (Routine.define t name c).Goes W n m fun _ u s =>
      u = [] ∧ m.store.refusal? t name = none ∧ s = m.store.bind t name c := by
  cases hrefusal : m.store.refusal? t name with
  | none =>
    refine of_move (a := ()) ?_ (moments_quiet _ m)
      (.bind ht hfield hnew hrefusal hc htakes hstill) rfl ⟨rfl, rfl, rfl⟩
    simp [Routine.define, quiet, hrefusal]
  | some g =>
    refine of_failed ?_ (moments_quiet _ m) (W.own g (Store.refusal?_own hrefusal))
    simp [Routine.define, quiet, hrefusal]

/-- A new name in a table that is none of an object. -/
theorem defineFree {t : TableId} (ht : m.store.HasTable t) (hc : m.store.Common c) :
    (Routine.define t name c).Goes W n m fun _ _ s => s = m.store.bind t name c :=
  (define ht.holds (fun o => ht.ne_part o _) (fun o p hp => absurd hp (ht.ne_part o p))
    hc.shared (ht.takes name) fun _ _ => hc.still).mono fun _ _ _ h => h.2.2

/-- A new name for a value, in a table other than a field table. -/
theorem defineConst (hm : Ready W n m) {t : TableId} (ht : m.store.Holds t)
    (hfield : ∀ o, t ≠ .part o .fields) (hnew : ∀ o p, t = .part o p → n ≤ o.index)
    (hv : m.store.HasObject v) (htakes : m.store.Takes t name) :
    (Routine.defineConst t name v).Goes W n m fun _ u s =>
      u = [] ∧ m.store.refusal? t name = none ∧ s = m.store.addConst t name v := by
  refine bind hm (newCell hv (by simp)) ?_
  rintro c _ m' hreached ⟨rfl, hstore, rfl⟩
  have hc : m'.store.Common ⟨m.store.cells.size⟩ := by
    rw [hstore]
    exact Store.common_newCell hm.sound.store.toWellformed (by simp) trivial
  have htakes' : m'.store.Takes t name := by
    rw [hstore]
    exact htakes
  refine (define (ht.mono hreached.sizes) hfield hnew hc.shared htakes' fun _ _ => hc.still).mono ?_
  rintro _ u s ⟨rfl, hrefusal, rfl⟩
  rw [hstore] at hrefusal ⊢
  exact ⟨rfl, hrefusal, rfl⟩

theorem defineFreeConst (hm : Ready W n m) {t : TableId} (ht : m.store.HasTable t)
    (hv : m.store.HasObject v) :
    (Routine.defineConst t name v).Goes W n m fun _ _ _ => True :=
  (defineConst hm ht.holds (fun o => ht.ne_part o _) (fun o p hp => absurd hp (ht.ne_part o p)) hv
    (ht.takes name)).mono fun _ _ _ _ => trivial

/-- A routine between a change of the call stack and the clean-up of that change. -/
theorem enclosed {g : Machine → Machine} (hbefore : Path W n m [] m₁)
    (hclean : ∀ m' : Machine, KeptStack m'.store m₁.stack m'.stack →
      Path W n m' [] (g m') ∧ (g m').store = m'.store ∧
        KeptStack m'.store m.stack (g m').stack) (hrun : y m = x.ensuring g m₁)
    (htrace : y.moments m = x.moments m₁) (hx : x.Goes W n m₁ Q) : y.Goes W n m Q := by
  refine of_ended (fun m' hend => ?_) (fun a m' hdone => ?_) (fun e m' hfailed => ?_) ?_
  · obtain ⟨m₂, hout, rfl⟩ := machine?_ensuring (hrun ▸ hend)
    obtain ⟨hpath, hkept⟩ := hx.ended hout
    obtain ⟨hafter, hstore, hstack⟩ := hclean m₂ hkept
    have hall := hbefore.trans (hpath.trans hafter)
    rw [List.nil_append, List.append_nil] at hall
    rw [htrace, hstore]
    exact ⟨hall, hstack⟩
  · obtain ⟨m₂, hout, rfl⟩ := done_of_ensuring (hrun ▸ hdone)
    obtain ⟨-, hkept, hQ⟩ := hx.done hout
    rwa [htrace, (hclean m₂ hkept).2.1]
  · obtain ⟨m₂, hout, rfl⟩ := failed_of_ensuring (hrun ▸ hfailed)
    rw [htrace]
    exact (hx.failed hout).2.2
  · rw [htrace]
    exact hx.path.imp fun _ => hbefore.trans

/-- An activation is taken off again, so that whatever it recorded is gone. -/
theorem withActivation {a : Activation} (ha : a.Fits m.store) (hx : x.Goes W n (m.push a) Q) :
    (Routine.withActivation a x).Goes W n m Q := by
  refine enclosed (g := Machine.pop) (.single (.push ha)) ?_ rfl ?_ hx
  · intro m' hkept
    refine ⟨.single .pop, ?_⟩
    cases hstack : m'.stack with
    | nil =>
      rw [hstack] at hkept
      cases hkept
    | cons b rest =>
      rw [hstack] at hkept
      cases hkept
      simp only [pop, hstack]
      exact ⟨rfl, .refl _ _⟩
  · simp [Routine.withActivation, Routine.ensuring]

/-- A scope is closed again on the activation that it was opened on. -/
theorem withScope {t : TableId} (ht : m.store.HasTable t)
    (hx : ∀ a rest, m.stack = a :: rest → x.Goes W n (m.modifyTop (·.pushScope t)) Q) :
    (Routine.withScope t x).Goes W n m Q := by
  refine bind_peek fun a ha => ?_
  obtain ⟨rest, hstack⟩ : ∃ rest, m.stack = a :: rest := by
    cases h : m.stack with
    | nil => simp [h] at ha
    | cons b rest =>
      rw [h] at ha
      cases ha
      exact ⟨rest, rfl⟩
  refine enclosed (g := (·.modifyTop Activation.popScope)) (.single (.openScope ht)) ?_ rfl
    ?_ (hx a rest hstack)
  · intro m' hkept
    refine ⟨.single .closeScope, ?_⟩
    rw [modifyTop_eq hstack] at hkept
    cases hstack' : m'.stack with
    | nil =>
      rw [hstack'] at hkept
      cases hkept
    | cons b rest' =>
      rw [hstack'] at hkept
      cases hkept with
      | running _ hext =>
        obtain ⟨extra, rfl, hkeys, howner⟩ := hext
        simp only [modifyTop_eq hstack']
        rw [hstack]
        exact ⟨trivial, .running rest ⟨extra, rfl, hkeys, howner⟩⟩
  · rw [moments_bind_done rfl]
    simp [Routine.modify, Routine.ensuring]

/-- An error that leaves a statement takes its text along, unless it has one already. -/
theorem leaving (hst : W.statement st) (hx : x.Goes W n m Q) :
    (x.onError (.leaves st) (·.leaving st.text)).Goes W n m Q := by
  rw [Goes] at hx ⊢
  rw [moments_onError]
  cases hrun : x m with
  | failed e m' =>
    rw [hrun] at hx
    obtain ⟨hpath, hkept, hfails⟩ := hx
    have hleaves : Path W n m' [⟨.leaves st e, m'⟩] m' :=
      Path.moment (p := ⟨.leaves st e, m'⟩) hst
    simp only [onError, hrun]
    exact ⟨hpath.trans hleaves, hkept, hfails.leaving hst m'⟩
  | _ =>
    rw [hrun] at hx
    simpa only [onError, hrun, List.append_nil] using hx

/-- A task of the machine's own that fails with a bare fault. -/
theorem doing (hx : x.Goes W n m Q) (hbare : x.Bare) (t : Task) :
    (x.doing t).Goes W n m Q := by
  have htrace := moments_doing x t m
  rw [Goes] at hx ⊢
  rw [doing_run, htrace]
  cases hrun : x m with
  | failed e m' =>
    rw [hrun] at hx
    obtain ⟨f, rfl⟩ := hbare m e m' hrun
    obtain ⟨hpath, hkept, hfails⟩ := hx
    have hbreaks : Path W n m' [⟨.breaks t (.fault f), m'⟩] m' :=
      Path.moment (p := ⟨.breaks t (.fault f), m'⟩) trivial
    exact ⟨hpath.trans hbreaks, hkept, .bare (hfails.of_fault rfl)⟩
  | _ =>
    rw [hrun] at hx
    rwa [List.append_nil]

/-- An error that is caught is dealt with, or passed on as it is. -/
theorem bind_attempt {g : Except Error α → Routine β} (hm : Ready W n m) (hx : x.Goes W n m Q)
    (hok : ∀ a t m', Reached W n m m' → Q a t m'.store →
      (g (.ok a)).Goes W n m' fun b u s => R b (t ++ u) s)
    (herr : ∀ e t m', Reached W n m m' →
      ((g (.error e)).Goes W n m' fun b u s => R b (t ++ u) s) ∨ g (.error e) = failWith e) :
    (x.attempt >>= g).Goes W n m R := by
  have htrace : x.attempt.moments m = x.moments m := moments_ending _ _ m
  cases hrun : x m with
  | done a m' =>
    obtain ⟨hpath, hkept, hQ⟩ := hx.done hrun
    have hrun' : x.attempt m = .done (.ok a) m' := by simp [attempt, ending, hrun]
    refine chain hm hrun' (htrace ▸ hpath) hkept ?_
    rw [htrace]
    exact hok a _ m' (reached hm hpath hkept) hQ
  | failed e m' =>
    obtain ⟨hpath, hkept, hfails⟩ := hx.failed hrun
    have hrun' : x.attempt m = .done (.error e) m' := by simp [attempt, ending, hrun]
    rcases herr e (x.moments m) m' (reached hm hpath hkept) with hnext | hpass
    · refine chain hm hrun' (htrace ▸ hpath) hkept ?_
      rw [htrace]
      exact hnext
    · have hbind : (x.attempt >>= g) m = .failed e m' := by
        rw [bind_run, hrun']
        exact congrArg (fun y : Routine β => y m') hpass
      have htrace' : (x.attempt >>= g).moments m = x.moments m := by
        rw [moments_bind_done hrun', hpass, htrace, failWith, moments_quiet, List.append_nil]
      rw [Goes, hbind, htrace']
      exact ⟨hpath, hkept, hfails⟩
  | exhausted =>
    have hrun' : x.attempt m = .exhausted := by simp [attempt, ending, hrun]
    have hbind : (x.attempt >>= g) m = .exhausted := by rw [bind_run, hrun']
    have htrace' : (x.attempt >>= g).moments m = x.moments m := by
      rw [moments_bind, hrun', htrace, List.append_nil]
    rw [Goes, hbind, htrace']
    exact hx.exhausted hrun

section Lists

variable {γ : Type} {g : γ → Routine Unit}

/-- A routine run on each member of a list, with a claim that grows along the list. -/
theorem forM (hm : Ready W n m) (l : List γ) (I : List γ → List Moment → Store → Prop)
    (hstart : I [] [] m.store)
    (hstep : ∀ before a after, l = before ++ a :: after → ∀ t m', Reached W n m m' →
      I before t m'.store → (g a).Goes W n m' fun _ u s => I (before ++ [a]) (t ++ u) s) :
    (l.forM g).Goes W n m fun _ t s => I l t s := by
  -- The claim is carried from a part that is done to the part that is left.
  have hrest : ∀ (after before : List γ) (t : List Moment) (m' : Machine), l = before ++ after →
      Reached W n m m' → I before t m'.store →
      (after.forM g).Goes W n m' fun _ u s => I l (t ++ u) s := by
    intro after
    induction after with
    | nil =>
      intro before t m' hl _ hI
      rw [List.append_nil] at hl
      refine pure ?_
      rw [hl, List.append_nil]
      exact hI
    | cons a after ih =>
      intro before t m' hl hreached hI
      refine bind (hreached.ready hm) (hstep before a after hl t m' hreached hI) ?_
      intro _ u m'' hreached' hI'
      have hnext := ih (before ++ [a]) (t ++ u) m'' (by simp [hl]) (hreached.trans hreached') hI'
      simpa only [List.append_assoc] using hnext
  exact hrest l [] [] m rfl (.refl hm.sound) hstart

theorem each (hm : Ready W n m) (l : List γ)
    (hstep : ∀ a ∈ l, ∀ m', Reached W n m m' → (g a).Goes W n m' fun _ _ _ => True) :
    (l.forM g).Goes W n m fun _ _ _ => True := by
  refine forM hm l (fun _ _ _ => True) trivial ?_
  intro before a after hl t m' hreached _
  exact hstep a (by simp [hl]) m' hreached

end Lists

end Goes

end Routine

end ObjectLang
