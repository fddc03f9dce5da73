import ObjectLang.Proofs.Standing

/-!
Routines that keep the machine's own faults away.
On a guarded machine, whose moments on the way are all ones that programs come by, such a routine
fails with no fault of the machine's own, breaks off none of the machine's own tasks, and leaves a
guarded machine. There is one rule for each way of putting routines together.
-/
namespace ObjectLang

/-- A fault that tells of the machine itself, not of a program. -/
def Fault.Internal : Fault → Prop
  | .noActivation _ | .noScope _ | .memberName _ | .notModule _ | .missingArgument _ => True
  | _ => False

def Error.Internal : Error → Prop
  | .fault f => f.Internal
  | .malformed _ => False
  | .fatal cause _ => cause.Internal

theorem Error.internal_leaving (e : Error) (text : String) :
    (e.leaving text).Internal ↔ e.Internal := by
  cases e <;> exact Iff.rfl

variable {e : Error}

/-- An error is internal if the fault behind it is. -/
theorem Error.internal_of_rootCause {f : Fault} (h : e.rootCause = .fault f) (hf : f.Internal) :
    e.Internal := by
  induction e with
  | fault g =>
    cases h
    exact hf
  | malformed e => cases h
  | fatal cause excerpt ih => exact ih h

namespace Machine

variable {m m' m'' : Machine}

structure Guarded (m : Machine) : Prop where
  store : m.store.Guarded
  frames : m.stack ≠ []
  stack : ∀ a ∈ m.stack, a.Sturdy m.store
  builtins : m.builtins.isFree = true
  modules : m.modules.isFree = true
  roots : m.roots.Ordinary m.store

theorem Guarded.top (h : m.Guarded) : ∃ a rest, m.stack = a :: rest ∧ a.Sturdy m.store := by
  obtain ⟨a, rest, heq⟩ := List.exists_cons_of_ne_nil h.frames
  exact ⟨a, rest, heq, h.stack a (heq ▸ List.mem_cons_self ..)⟩

theorem Guarded.of_store (h : m.Guarded) {s : Store} (hs : s.Guarded) (hg : m.store.Grows s) :
    ({ m with store := s } : Machine).Guarded :=
  ⟨hs, h.frames, fun a ha => (h.stack a ha).mono hg, h.builtins, h.modules, h.roots.mono hg⟩

/-- Where a routine that keeps guard leaves the machine. -/
structure Keeps (m m' : Machine) : Prop where
  guarded : m'.Guarded
  grows : m.store.Grows m'.store
  formed : ∀ o, m'.store.Formless o → m.store.Formless o
  tables : m'.stack.map Activation.tables = m.stack.map Activation.tables

namespace Keeps

theorem refl (h : m.Guarded) : m.Keeps m := ⟨h, .refl _, fun _ => id, rfl⟩

theorem trans (h : m.Keeps m') (h' : m'.Keeps m'') : m.Keeps m'' :=
  ⟨h'.guarded, h.grows.trans h'.grows, fun o ho => h.formed o (h'.formed o ho),
    h'.tables.trans h.tables⟩

theorem of_store (hm : m.Guarded) {s : Store} (hs : s.Guarded) (hg : m.store.Grows s)
    (hformed : ∀ o, s.Formless o → m.store.Formless o) : m.Keeps { m with store := s } where
  guarded := hm.of_store hs hg
  grows := hg
  formed := hformed
  tables := rfl

/-- Nothing but the output and the log differs. -/
theorem of_same (hm : m.Guarded) (sink : Sink) (log : List Event) :
    m.Keeps { m with sink := sink, log := log } :=
  ⟨⟨hm.store, hm.frames, hm.stack, hm.builtins, hm.modules, hm.roots⟩, .refl _, fun _ => id, rfl⟩

theorem length_eq (h : m.Keeps m') : m'.stack.length = m.stack.length := by
  have hlength := congrArg List.length h.tables
  rwa [List.length_map, List.length_map] at hlength

end Keeps

theorem Guarded.push (h : m.Guarded) {a : Activation} (ha : a.Sturdy m.store) :
    (m.push a).Guarded where
  store := h.store
  frames := List.cons_ne_nil _ _
  stack := List.forall_mem_cons.mpr ⟨ha, h.stack⟩
  builtins := h.builtins
  modules := h.modules
  roots := h.roots

/-- The running activation may change to another sturdy one. -/
theorem Guarded.retop (h : m.Guarded) {a b : Activation} {rest : List Activation}
    (hstack : m.stack = a :: rest) (hb : b.Sturdy m.store) :
    ({ m with stack := b :: rest } : Machine).Guarded where
  store := h.store
  frames := List.cons_ne_nil _ _
  stack := List.forall_mem_cons.mpr
    ⟨hb, fun c hc => h.stack c (hstack ▸ List.mem_cons_of_mem _ hc)⟩
  builtins := h.builtins
  modules := h.modules
  roots := h.roots

end Machine

/-- A moment after `m` at which nothing of the machine's own has gone wrong, unless the bottom of
some object was in the making on `m`. -/
structure Moment.Guarded (p : Moment) (m : Machine) : Prop where
  machine : p.machine.Guarded
  formed : ∀ o, p.machine.store.Formless o → m.store.Formless o
  whole : ∀ t e, p.deed = .breaks t e → ∃ o, p.machine.store.Formless o
  error : ∀ s e, p.deed = .leaves s e → ¬ e.Internal
  target : ∀ o op c, p.deed = .reads (.operator o op) c → p.machine.store.Ordinary o

theorem Moment.Guarded.after {p : Moment} {m m' : Machine} (h : p.Guarded m')
    (hformed : ∀ o, m'.store.Formless o → m.store.Formless o) : p.Guarded m :=
  ⟨h.machine, fun o ho => hformed o (h.formed o ho), h.whole, h.error, h.target⟩

open Machine

namespace Routine

variable {α β : Type} {m : Machine} {P Q : α → Machine → Prop} {R : β → Machine → Prop}

/-- What a routine that keeps guard does on a machine. -/
structure Secures (x : Routine α) (m : Machine) (Q : α → Machine → Prop) : Prop where
  done : ∀ a m', x m = .done a m' → m.Keeps m' ∧ Q a m'
  failed : ∀ e m', x m = .failed e m' → m.Keeps m' ∧ ¬ e.Internal
  passes : ∀ p ∈ x.moments m, p.Guarded m

def Watched (x : Routine α) (m : Machine) : Prop := ∀ p ∈ x.moments m, Reachable p.machine

/-- The judgement. What is known of the moments on the way comes as a premise. -/
structure Guards (x : Routine α) (m : Machine) (Q : α → Machine → Prop) : Prop where
  secures : m.Guarded → x.Watched m → x.Secures m Q

def Yields (x : Routine ObjectId) (m : Machine) : Prop :=
  x.Guards m fun v m' => m'.store.Ordinary v

namespace Guards

variable {x y : Routine α} {f : α → Routine β} {m' : Machine} {t : TableId} {S : α → Store → Prop}
  {h : α → Routine Unit} {a : α} {name : String}

/-- The machine may be taken for guarded. -/
theorem of_guarded (h : m.Guarded → x.Guards m Q) : x.Guards m Q :=
  ⟨fun hm hwatched => (h hm).secures hm hwatched⟩

theorem of_watched (h : x.Watched m → x.Guards m Q) : x.Guards m Q :=
  ⟨fun hm hwatched => (h hwatched).secures hm hwatched⟩

theorem of_done (hsilent : x.moments m = []) (hrun : x m = .done a m')
    (hkeeps : m.Guarded → m.Keeps m') (hQ : m.Guarded → Q a m') : x.Guards m Q := by
  refine ⟨fun hm _ => ⟨?_, ?_, by simp [hsilent]⟩⟩ <;> rw [hrun]
  · rintro _ _ ⟨⟩
    exact ⟨hkeeps hm, hQ hm⟩
  · nofun

theorem of_failed (hsilent : x.moments m = []) (hrun : x m = .failed e m')
    (hkeeps : m.Guarded → m.Keeps m') (he : ¬ e.Internal) :
    x.Guards m Q := by
  refine ⟨fun hm _ => ⟨?_, ?_, by simp [hsilent]⟩⟩ <;> rw [hrun]
  · nofun
  · rintro _ _ ⟨⟩
    exact ⟨hkeeps hm, he⟩

theorem mono (h : x.Guards m P) (hPQ : ∀ a m', m.Keeps m' → P a m' → Q a m') : x.Guards m Q := by
  refine ⟨fun hm hwatched => ?_⟩
  obtain ⟨hdone, hfailed, hpasses⟩ := h.secures hm hwatched
  refine ⟨fun a m' hrun => ?_, hfailed, hpasses⟩
  obtain ⟨hkeeps, hP⟩ := hdone a m' hrun
  exact ⟨hkeeps, hPQ a m' hkeeps hP⟩

theorem of_resumes (hres : x.Resumes m y m') (hkeeps : m.Guarded → m.Keeps m')
    (hy : y.Guards m' Q) : x.Guards m Q := by
  refine ⟨fun hm hwatched => ?_⟩
  have hstep := hkeeps hm
  obtain ⟨hdone, hfailed, hpasses⟩ := hy.secures hstep.guarded fun p hp =>
    hwatched p (hres.moments ▸ hp)
  refine ⟨fun a m'' hrun => ?_, fun e m'' hrun => ?_,
    fun p hp => (hpasses p (hres.moments ▸ hp)).after hstep.formed⟩
  · obtain ⟨hrest, hQ⟩ := hdone a m'' (hres.run ▸ hrun)
    exact ⟨hstep.trans hrest, hQ⟩
  · obtain ⟨hrest, he⟩ := hfailed e m'' (hres.run ▸ hrun)
    exact ⟨hstep.trans hrest, he⟩

/-- What passes no moment need not keep guard before it ends. -/
theorem of_silent (hy : y.Guards m' P) (hres : x.Resumes m y m') (hsilent : y.moments m' = [])
    (hfailed : ∀ e m₁, y m' ≠ .failed e m₁) (hm' : m.Guarded → m'.Guarded)
    (hends : ∀ a m₁, m'.Keeps m₁ → P a m₁ → m.Keeps m₁ ∧ Q a m₁) : x.Guards m Q := by
  refine ⟨fun hm _ => ⟨fun a m₁ hdone => ?_, fun e m₁ hend => ?_, by simp [hres.moments, hsilent]⟩⟩
  · rw [hres.run] at hdone
    obtain ⟨hkeeps, hP⟩ := (hy.secures (hm' hm) (by simp [Watched, hsilent])).done a m₁ hdone
    exact hends a m₁ hkeeps hP
  · rw [hres.run] at hend
    exact absurd hend (hfailed e m₁)

theorem pure (h : Q a m) : (Pure.pure a : Routine α).Guards m Q :=
  of_done (moments_pure a m) rfl .refl fun _ => h

theorem fail {fault : Fault} (h : ¬ fault.Internal) :
    (Routine.fail fault : Routine α).Guards m Q := of_failed (moments_quiet _ m) rfl .refl h

theorem failWith (h : ¬ e.Internal) : (Routine.failWith e : Routine α).Guards m Q :=
  of_failed (moments_quiet _ m) rfl .refl h

theorem outOfFuel : (Routine.outOfFuel : Routine α).Guards m Q := by
  refine ⟨fun _ _ => ⟨nofun, nofun, ?_⟩⟩
  rw [Routine.outOfFuel, moments_quiet]
  simp

/-- What comes first may also be spoken of by its run. -/
theorem bind_run (hx : x.Guards m P) (hf : ∀ a m₁, x m = .done a m₁ → m.Keeps m₁ → P a m₁ →
    (f a).Guards m₁ R) : (x >>= f).Guards m R := by
  refine ⟨fun hm hwatched => ?_⟩
  have hfirst := hx.secures hm fun p hp => hwatched p (mem_bind_left hp)
  have hnext : ∀ a m₁, x m = .done a m₁ → m.Keeps m₁ ∧ (f a).Secures m₁ R := by
    intro a m₁ hrun
    obtain ⟨hstep, hP⟩ := hfirst.done a m₁ hrun
    exact ⟨hstep, (hf a m₁ hrun hstep hP).secures hstep.guarded fun p hp =>
      hwatched p (mem_bind_right hrun hp)⟩
  refine ⟨fun b m₂ hdone => ?_, fun e m₂ hfailed => ?_, fun p hp => ?_⟩
  · obtain ⟨a, m₁, hrun, hrest⟩ := done_of_bind hdone
    obtain ⟨hstep, hsecures⟩ := hnext a m₁ hrun
    exact (hsecures.done b m₂ hrest).imp_left hstep.trans
  · rcases failed_of_bind hfailed with hrun | ⟨a, m₁, hrun, hrest⟩
    · exact hfirst.failed e m₂ hrun
    · obtain ⟨hstep, hsecures⟩ := hnext a m₁ hrun
      exact (hsecures.failed e m₂ hrest).imp_left hstep.trans
  · rcases mem_bind hp with hp | ⟨a, m₁, hrun, hp⟩
    · exact hfirst.passes p hp
    · obtain ⟨hstep, hsecures⟩ := hnext a m₁ hrun
      exact (hsecures.passes p hp).after hstep.formed

theorem bind (hx : x.Guards m P)
    (hf : ∀ a m₁, m.Keeps m₁ → P a m₁ → (f a).Guards m₁ R) : (x >>= f).Guards m R :=
  hx.bind_run fun a m₁ _ => hf a m₁

theorem map (h : α → β) (hx : x.Guards m P) (hR : ∀ a m', P a m' → R (h a) m') :
    (h <$> x).Guards m R :=
  hx.bind (f := fun a => Pure.pure (h a)) fun a m' _ hP => .pure (hR a m' hP)

/-- Between steps nothing is done. -/
theorem bind_done (hrun : x m = .done a m) (hsilent : x.moments m = []) (hf : (f a).Guards m R) :
    (x >>= f).Guards m R := of_resumes (.bind hrun hsilent) .refl hf

theorem bind_see {h : Store → α} (hf : (f (h m.store)).Guards m R) :
    (Routine.see h >>= f).Guards m R := bind_done rfl (moments_quiet _ m) hf

theorem see (h : Store → α) : (Routine.see h).Guards m fun a m' => a = h m.store ∧ m = m' :=
  of_done (moments_quiet _ m) rfl .refl fun _ => ⟨rfl, rfl⟩

theorem bind_read {h : Machine → α} (hf : (f (h m)).Guards m R) :
    (Routine.read h >>= f).Guards m R := bind_done rfl (moments_quiet _ m) hf

/-- The moment that is passed is one that programs come by. -/
theorem bind_touch {d : Deed} {y : Routine β} (hy : Reachable m → y.Guards m R)
    (hbreaks : ∀ t e, d ≠ .breaks t e := by simp) (hleaves : ∀ s e, d ≠ .leaves s e := by simp)
    (htarget : ∀ o op c, d = .reads (.operator o op) c → m.store.Ordinary o := by simp) :
    (touch d >>= fun _ => y).Guards m R := by
  refine of_watched fun hwatched => ?_
  have hfirst : (⟨d, m⟩ : Moment) ∈ (touch d >>= fun _ => y).moments m := by
    rw [moments_bind, moments_touch]
    exact List.mem_append.mpr (Or.inl (List.mem_singleton.mpr rfl))
  have htouch : (touch d).Guards m fun _ m' => m' = m := by
    refine ⟨fun hm _ => ⟨?_, nofun, ?_⟩⟩
    · rintro _ _ ⟨⟩
      exact ⟨.refl hm, rfl⟩
    · rw [moments_touch]
      intro p hp
      obtain rfl := List.mem_singleton.mp hp
      exact ⟨hm, fun _ => id, fun t e heq => absurd heq (hbreaks t e),
        fun s e heq => absurd heq (hleaves s e), htarget⟩
  refine htouch.bind ?_
  rintro _ _ - rfl
  exact hy (hwatched _ hfirst)

/-- The activation that runs is there. -/
theorem bind_top {f : Activation → Routine β}
    (hf : ∀ a rest, m.stack = a :: rest → a.Sturdy m.store → (f a).Guards m R) :
    (peek 0 >>= f).Guards m R := by
  refine of_guarded fun hm => ?_
  obtain ⟨a, rest, hstack, ha⟩ := hm.top
  have hrun : peek 0 m = .done a m := by simp [peek, quiet, hstack]
  exact bind_done hrun (moments_quiet _ m) (hf a rest hstack ha)

theorem note (e : Event) : (Routine.note e).Guards m fun _ m' => m' = m.note e :=
  of_done (moments_quiet _ m) rfl (.of_same · m.sink (e :: m.log)) fun _ => rfl

theorem writeLine (text : String) : (Routine.writeLine text).Guards m fun _ _ => True := by
  cases hsink : m.sink with
  | collecting lines =>
    refine of_done (a := ()) (moments_quiet _ m) ?_
      (.of_same · (.collecting ((text ++ "\n") :: lines)) m.log) fun _ => trivial
    simp [Routine.writeLine, quiet, hsink]
  | broken reason =>
    refine of_failed (e := .fault (.closedSink reason)) (moments_quiet _ m) ?_ .refl id
    simp [Routine.writeLine, quiet, hsink]

theorem ofExcept {r : Except Fault α} (hr : ∀ fault, r = .error fault → ¬ fault.Internal) :
    (Routine.ofExcept r).Guards m fun _ m' => m = m' := by
  cases r with
  | ok a => exact pure rfl
  | error fault => exact fail (hr fault rfl)

theorem change {h : Store → Store}
    (hh : m.Guarded → (h m.store).Guarded ∧ m.store.Grows (h m.store))
    (hformed : ∀ o, (h m.store).Formless o → m.store.Formless o) :
    (Routine.change h).Guards m fun _ m' => m' = { m with store := h m.store } :=
  of_done (moments_quiet _ m) rfl (fun hm => .of_store hm (hh hm).1 (hh hm).2 hformed) fun _ => rfl

theorem make {h : Store → α × Store}
    (hh : m.Guarded → (h m.store).2.Guarded ∧ m.store.Grows (h m.store).2)
    (hformed : ∀ o, (h m.store).2.Formless o → m.store.Formless o) :
    (Routine.make h).Guards m fun a m' =>
      a = (h m.store).1 ∧ m' = { m with store := (h m.store).2 } :=
  of_done (moments_quiet _ m) rfl (fun hm => .of_store hm (hh hm).1 (hh hm).2 hformed)
    fun _ => ⟨rfl, rfl⟩

theorem newCell {c : Cell} (hc : m.Guarded → c.Apt m.store) :
    (Routine.newCell c).Guards m fun a m' =>
      a = ⟨m.store.cells.size⟩ ∧ m' = { m with store := (m.store.newCell c).2 } :=
  make (fun hm => ⟨hm.store.newCell (hc hm), m.store.newCell_grows c⟩) fun _ => id

theorem newObject {b : ObjectId} {kind : Kind} (hb : m.store.Ordinary b)
    (hkind : kind.Apt m.store) : (Routine.newObject (some b) kind).Guards m fun o m' =>
      o = m.store.fresh ∧ m' = { m with store := (m.store.newObject (some b) kind).2 } :=
  make (fun hm => ⟨hm.store.newObject (fun _ h => Option.some.inj h ▸ hb) hkind,
    m.store.newObject_grows (some b) kind⟩) fun _ h => h.of_newObject (by simp)

theorem newTable : Routine.newTable.Guards m fun t m' =>
    t = .free m.store.tables.size ∧ m' = m.tabled :=
  make (fun hm => ⟨hm.store.newTable (by simp [Table.empty]) rfl, m.store.newTable_grows .empty⟩)
    fun _ => id

/-- A refusal is about the name. -/
theorem define {c : CellId} (h : m.Guarded → m.store.Allows t (name, c)) :
    (Routine.define t name c).Guards m fun _ m' =>
      m' = { m with store := m.store.bind t name c } := by
  rcases define_cases t name c m with ⟨hrefusal, hrun⟩ | ⟨fault, hrefusal, hrun⟩
  · refine of_done (moments_quiet _ m) hrun (fun hm => ?_) fun _ => rfl
    by_cases hholds : m.store.Holds t
    · have hfree := Store.free_of_refusal? hrefusal
      exact .of_store hm (hm.store.bind hholds hfree (h hm)) (m.store.bind_grows c hholds hfree)
        fun _ => .of_bind
    · rw [Store.bind_eq_self hholds]
      exact .refl hm
  · refine of_failed (moments_quiet _ m) hrun .refl ?_
    rcases Store.fault_of_refusal? hrefusal with ⟨-, rfl⟩ | rfl <;> exact id

/-- A constant that is bound for the first time. Only operators may be bound to what is kept from
programs, and only to code. -/
theorem defineConst {v : ObjectId} (hv : m.Guarded → m.store.HasObject v)
    (hkept : m.store.MethodBy Code.hides v → ∃ o, t = .part o .operators ∧
      ((m.store.MethodBy Code.looks v → name = ".") ∧ o ≠ v ∨ name = "()" ∧ o = v))
    (hoperator : ∀ o, t = .part o .operators → (m.store.Performs o name v ∧
      (name = "." → m.store.MethodBy Code.reads v)) ∧ m.store.Bearer o) :
    (Routine.defineConst t name v).Guards m fun _ m' =>
      m' = { m with store := m.store.addConst t name v } := by
  refine of_guarded fun hm => (newCell (c := .const v) fun hm => hv hm).bind ?_
  rintro c _ - ⟨rfl, rfl⟩
  have hcell := m.store.cell_newCell_self (.const v)
  have hgrows := m.store.newCell_grows (.const v)
  refine define fun _ => ⟨by simp [Store.HasCell], ?_, ?_, ?_⟩
  · intro f hf
    cases hcell.symm.trans hf
    rw [Store.methodBy_grows hgrows (hv hm), Store.methodBy_grows hgrows (hv hm)]
    exact hkept
  · intro o ho
    obtain ⟨hperforms, hreads⟩ := (hoperator o ho).1
    exact ⟨v, hcell, hperforms.mono hgrows, fun hname => (hreads hname).mono hgrows⟩
  · intro o ho
    exact (hoperator o ho).2.mono hgrows

/-- Error by error, a task of the machine's own fails only while a bottom is in the making. -/
theorem doing (hx : x.Guards m Q) (t : Task)
    (hfailed : ∀ e m', x m = .failed e m' → m.Guarded → m.Keeps m' → Reachable m' →
      ∃ o, m'.store.Formless o) : (x.doing t).Guards m Q := by
  refine ⟨fun hm hwatched => ?_⟩
  rw [Watched, doing_eq] at hwatched
  have hsecures := hx.secures hm fun p hp => hwatched p (mem_onError_left hp)
  refine ⟨hsecures.done, hsecures.failed, fun p hp => ?_⟩
  rw [doing_eq] at hp
  rcases mem_onError hp with hin | ⟨e, m', hrun, rfl⟩
  · exact hsecures.passes p hin
  · have hkeeps := (hsecures.failed e m' hrun).1
    exact ⟨hkeeps.guarded, hkeeps.formed, fun _ _ _ => hfailed e m' hrun hm hkeeps (hwatched _ hp),
      nofun, nofun⟩

/-- An error that leaves a statement is no internal one. -/
theorem leaving (hx : x.Guards m Q) (s : Statement) (text : String) :
    (x.onError (.leaves s) (·.leaving text)).Guards m Q := by
  refine ⟨fun hm hwatched => ?_⟩
  have hsecures := hx.secures hm fun p hp => hwatched p (mem_onError_left hp)
  refine ⟨fun a m' hend => hsecures.done a m' (done_of_onError hend), fun e m' hend => ?_, ?_⟩
  · obtain ⟨e', hrun, rfl⟩ := failed_of_onError hend
    exact (hsecures.failed e' m' hrun).imp_right (e'.internal_leaving text).not.mpr
  · intro p hp
    rcases mem_onError hp with hp | ⟨e, m', hrun, rfl⟩
    · exact hsecures.passes p hp
    · obtain ⟨hkeeps, he⟩ := hsecures.failed e m' hrun
      refine ⟨hkeeps.guarded, hkeeps.formed, nofun, ?_, nofun⟩
      rintro _ _ ⟨⟩
      exact he

/-- An error that is caught is no internal one. -/
theorem attempt (hx : x.Guards m Q) : (Routine.attempt x).Guards m fun r m' =>
    (∀ a, r = .ok a → Q a m') ∧ ∀ e, r = .error e → ¬ e.Internal := by
  refine ⟨fun hm hwatched => ?_⟩
  have hmoments : (Routine.attempt x).moments m = x.moments m := moments_ending x _ m
  obtain ⟨hdone, hfailed, hpasses⟩ := hx.secures hm fun p hp => hwatched p (hmoments ▸ hp)
  refine ⟨fun r m' hend => ?_, fun e m' hend => absurd hend (attempt_ne_failed x m e m'),
    hmoments ▸ hpasses⟩
  rcases done_of_attempt hend with ⟨a, rfl, hrun⟩ | ⟨e, rfl, hrun⟩
  · obtain ⟨hkeeps, hQ⟩ := hdone a m' hrun
    exact ⟨hkeeps, by rintro _ ⟨⟩; exact hQ, by simp⟩
  · obtain ⟨hkeeps, he⟩ := hfailed e m' hrun
    exact ⟨hkeeps, by simp, by rintro _ ⟨⟩; exact he⟩

/-- What is bound one after the other; `I` is what holds when some of it is done. -/
theorem forM_inv (I : List α → Machine → Prop) (as : List α) (hI : I [] m)
    (hstep : ∀ before a after m₁, as = before ++ a :: after → m.Keeps m₁ →
      I before m₁ → (h a).Guards m₁ fun _ m₂ => I (before ++ [a]) m₂) :
    (as.forM h).Guards m fun _ m' => I as m' := by
  -- The list is split anywhere: what is in front of the split is done.
  have hsplit : ∀ rest before m₁, as = before ++ rest → m.Keeps m₁ → I before m₁ →
      (rest.forM h).Guards m₁ fun _ m' => I as m' := by
    intro rest
    induction rest with
    | nil =>
      intro before m₁ has _ hbefore
      rw [List.append_nil] at has
      exact .pure (has ▸ hbefore)
    | cons a rest ih =>
      intro before m₁ has hkeeps hbefore
      refine (hstep before a rest m₁ has hkeeps hbefore).bind fun _ m₂ hkeeps' hdone => ?_
      exact ih (before ++ [a]) m₂ (by simp [has]) (hkeeps.trans hkeeps') hdone
  exact of_guarded fun hm => hsplit as [] m rfl (.refl hm) hI

theorem forM (as : List α) (hh : ∀ a ∈ as, ∀ m₁, m.Keeps m₁ → (h a).Guards m₁ fun _ _ => True) :
    (as.forM h).Guards m fun _ _ => True :=
  forM_inv (fun _ _ => True) as trivial fun before a after m₁ has hkeeps _ =>
    hh a (by simp [has]) m₁ hkeeps

/-- A routine on a machine that is changed first, and cleaned up after. -/
theorem ensuring {m₀ : Machine} {g : Machine → Machine} (hx : x.Guards m₀ Q)
    (hm₀ : m.Guarded → m₀.Guarded) (hends : ∀ m', m.Guarded → m₀.Keeps m' → m.Keeps (g m'))
    (hQ : ∀ a m', Q a m' → Q a (g m')) (hres : y.Resumes m (x.ensuring g) m₀)
    (hstore : m₀.store = m.store) : y.Guards m Q := by
  refine ⟨fun hm hwatched => ?_⟩
  have hmoments : y.moments m = x.moments m₀ := hres.moments.trans (moments_ending x _ m₀)
  obtain ⟨hdone, hfailed, hpasses⟩ := hx.secures (hm₀ hm) fun p hp => hwatched p (hmoments ▸ hp)
  refine ⟨fun a m' hend => ?_, fun e m' hend => ?_, fun p hp => ?_⟩
  · obtain ⟨m₁, hrun, rfl⟩ := done_of_ensuring (hres.run ▸ hend)
    exact (hdone a m₁ hrun).imp (hends m₁ hm) (hQ a m₁)
  · obtain ⟨m₁, hrun, rfl⟩ := failed_of_ensuring (hres.run ▸ hend)
    exact (hfailed e m₁ hrun).imp_left (hends m₁ hm)
  · exact (hpasses p (hmoments ▸ hp)).after fun _ => hstore ▸ id

/-- What is asked of the value is asked of the store it is in. -/
theorem withActivation {a : Activation} (ha : a.Sturdy m.store)
    (hx : x.Guards (m.push a) fun v m' => S v m'.store) :
    (Routine.withActivation a x).Guards m fun v m' => S v m'.store := by
  refine hx.ensuring (g := Machine.pop) (fun hm => hm.push ha) ?_ ?_
    ⟨rfl, by rw [Routine.withActivation, moments_on]⟩ rfl
  · intro m' hm hkeeps
    obtain ⟨b, rest, hstack, hpop, hrest⟩ := pop_of_tables hkeeps.tables
    have hguarded := hkeeps.guarded
    rw [hpop]
    refine ⟨⟨hguarded.store, ?_, ?_, hguarded.builtins, hguarded.modules, hguarded.roots⟩,
      hkeeps.grows, hkeeps.formed, hrest⟩
    · rintro rfl
      exact hm.frames (List.map_eq_nil_iff.mp hrest.symm)
    · exact fun c hc => hguarded.stack c (hstack ▸ List.mem_cons_of_mem _ hc)
  · intro v m' hS
    rw [Machine.pop]
    split <;> exact hS

theorem withScope (ht : t.isFree = true) (hx : ∀ a rest, m.stack = a :: rest →
      x.Guards { m with stack := a.pushScope t :: rest } fun v m' => S v m'.store) :
    (Routine.withScope t x).Guards m fun v m' => S v m'.store := by
  refine bind_top fun a rest hstack ha => ?_
  have hpushed : (a.pushScope t).Sturdy m.store :=
    ⟨ha.owner, List.cons_ne_nil _ _, List.forall_mem_cons.mpr ⟨ht, ha.scopes⟩, ha.home, ha.notes⟩
  refine (hx a rest hstack).ensuring (g := (·.modifyTop Activation.popScope))
    (fun hm => hm.retop hstack hpushed) ?_ ?_ (inScope_resumes t x hstack) rfl
  · intro m' hm hkeeps
    obtain ⟨b, rest', hstack', hclosed, hsame, htables⟩ := closeScope_of_tables hstack hkeeps.tables
    obtain ⟨hpopped, -⟩ := Prod.mk.inj hsame
    have hb := hkeeps.guarded.stack b (hstack' ▸ List.mem_cons_self ..)
    have hsturdy : b.popScope.Sturdy m'.store :=
      ⟨hb.owner, hpopped ▸ ha.inner, hpopped ▸ ha.scopes, hb.home, hb.notes⟩
    rw [hclosed]
    exact ⟨hkeeps.guarded.retop hstack' hsturdy, hkeeps.grows, hkeeps.formed, htables⟩
  · intro v m' hS
    rw [Machine.modifyTop]
    split <;> exact hS

end Guards

/-- A routine that gives an object does so on a machine that has changed since. -/
theorem Yields.bind {x : Routine ObjectId} {f : ObjectId → Routine β} (hx : x.Yields m)
    (hf : ∀ v m₁, m.Keeps m₁ → m₁.store.Ordinary v → (f v).Guards m₁ R) :
    (x >>= f).Guards m R := Guards.bind hx hf

end Routine

end ObjectLang
