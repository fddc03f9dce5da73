import ObjectLang.Proofs.Eval.MemberRead
import ObjectLang.Proofs.InternalFaults

/-!
Arguments are counted before anything happens.
A call of code with a fixed list of parameters comes to the body of the code, within an activation
that binds the parameters, if there are as many arguments as parameters and no two parameters have
one name. Otherwise it fails, and nothing that was there before is changed.
-/
namespace ObjectLang

open Machine Routine

def Store.code? (s : Store) (f : ObjectId) : Option Code :=
  match s.kind f with
  | .method _ code | .function code | .closure code _ => some code
  | _ => none

variable {f : ObjectId} {s : Store}

theorem Store.exists_code (h : (s.kind f).Callable) :
    ∃ code, s.code? f = some code := by
  rw [Store.code?]
  cases hkind : s.kind f with
  | method owner code => exact ⟨code, rfl⟩
  | function code => exact ⟨code, rfl⟩
  | closure code captured => exact ⟨code, rfl⟩
  | _ =>
    rw [hkind] at h
    cases h

theorem Store.code?_eq_none (h : ¬ (s.kind f).Callable) : s.code? f = none := by
  rw [Store.code?]
  cases hkind : s.kind f with
  | method owner code | function code | closure code captured =>
    rw [hkind] at h
    exact absurd trivial h
  | _ => rfl

def Store.subject (s : Store) (f : ObjectId) (receiver : Option ObjectId) : ObjectId :=
  match s.kind f with
  | .method owner _ => receiver.getD owner
  | _ => f

namespace Routine

variable {α : Type} {x y body : Routine α} {m m₁ : Machine} {caller : String} {code : Code}
  {names : List String} {args : List ObjectId}

/-- What a call comes to that the activation named `caller` makes. -/
structure Counts (x : Routine α) (m : Machine) (caller : String) (code : Code)
    (names : List String) (args : List ObjectId) (body : Routine α) : Prop where
  runs : names.length = args.length → names.Nodup → ∃ a m₁,
    x.Reaches m (body.ensuring leave) m₁ ∧ m.Entered a (names.zip args).reverse m₁ ∧
      a.name = code.name
  miscounted : names.length ≠ args.length → ∃ m',
    x.Reaches m (fail (.arity caller code.name names.length args.length)) m' ∧
      m.Retains m.store.objects.size m'
  repeated : names.length = args.length → ¬ names.Nodup → ∃ n ∈ names, ∃ m',
    x.Reaches m (fail (.nameTaken n)) m' ∧ m.Retains m.store.objects.size m'

/-- On its way to a call, a routine may add to what is there. -/
theorem Counts.of_reaches (hx : x.Reaches m y m₁) (hretains : m.Retains m.store.objects.size m₁)
    (h : y.Counts m₁ caller code names args body) : x.Counts m caller code names args body := by
  have hleft : ∀ {m'}, m₁.Retains m₁.store.objects.size m' → m.Retains m.store.objects.size m' :=
    fun h' => hretains.trans (h'.mono hretains.store.sizes.objects)
  refine ⟨fun hlength hnodup => ?_, fun hlength => ?_, fun hlength hnodup => ?_⟩
  · obtain ⟨a, m₂, hy, hentered, hname⟩ := h.runs hlength hnodup
    exact ⟨a, m₂, hx.trans hy, .of_retains hretains hentered, hname⟩
  · obtain ⟨m₂, hy, hm₂⟩ := h.miscounted hlength
    exact ⟨m₂, hx.trans hy, hleft hm₂⟩
  · obtain ⟨n, hn, m₂, hy, hm₂⟩ := h.repeated hlength hnodup
    exact ⟨n, hn, m₂, hx.trans hy, hleft hm₂⟩

theorem Reaches.discard (h : x.Reaches m y m₁) :
    (Functor.discard x).Reaches m (Functor.discard y) m₁ := by
  obtain ⟨t, ht, hstill⟩ := h.moments
  refine ⟨?_, t, ?_, hstill⟩
  · change (x >>= fun _ => Pure.pure ()) m = (y >>= fun _ => Pure.pure ()) m₁
    rw [bind_run, bind_run, h.run]
  · change (x >>= fun _ => Pure.pure ()).moments m = t ++ (y >>= fun _ => Pure.pure ()).moments m₁
    rw [moments_bind_silent x (fun _ => silent_pure ()),
      moments_bind_silent y fun _ => silent_pure (), ht]

/-- A call whose value is not used. -/
theorem Counts.discard (h : x.Counts m caller code names args body) :
    (Functor.discard x).Counts m caller code names args (Functor.discard body) := by
  have hfail : ∀ {f : Fault} {m' : Machine}, x.Reaches m (fail f) m' →
      (Functor.discard x).Reaches m (fail f) m' := by
    intro f m' hx
    refine hx.discard.trans (.of_resumes ⟨rfl, ?_⟩)
    change (fail f >>= fun _ => Pure.pure ()).moments m' = (fail f : Routine Unit).moments m'
    rw [moments_bind_silent _ fun _ => silent_pure ()]
    exact (moments_quiet _ _).trans (moments_quiet _ _).symm
  refine ⟨fun hlength hnodup => ?_, fun hlength => ?_, fun hlength hnodup => ?_⟩
  · obtain ⟨a, m₁, hx, hentered⟩ := h.runs hlength hnodup
    refine ⟨a, m₁, hx.discard.trans (.of_resumes ⟨?_, ?_⟩), hentered⟩
    · change (body.ensuring leave >>= fun _ => Pure.pure ()) m₁ =
        ((body >>= fun _ => Pure.pure ()).ensuring leave) m₁
      simp only [bind_run, ensuring, ending]
      cases body m₁ <;> rfl
    · change (body.ensuring leave >>= fun _ => Pure.pure ()).moments m₁ =
        ((body >>= fun _ => Pure.pure ()).ensuring leave).moments m₁
      rw [moments_bind_silent _ fun _ => silent_pure (), ensuring, ensuring, moments_ending,
        moments_ending, moments_bind_silent _ fun _ => silent_pure ()]
  · obtain ⟨m', hx, hretains⟩ := h.miscounted hlength
    exact ⟨m', hfail hx, hretains⟩
  · obtain ⟨n, hn, m', hx, hretains⟩ := h.repeated hlength hnodup
    exact ⟨n, hn, m', hfail hx, hretains⟩

end Routine

namespace Eval

variable {k : Inner} {m : Machine} {code : Code} {names : List String} {args : List ObjectId}
  {this : ObjectId} {a : Activation}

/-- The first parameter whose name is taken already is refused. -/
theorem bindParams_taken {i : Nat} {vs : List (String × ObjectId)} (h : s.Furnished i vs m.store)
    (hlength : names.length = args.length) (hnames : ∀ n ∈ names, NameRule.symbol.accepts n = true)
    (htaken : ¬ (names.Nodup ∧ ∀ n ∈ names, n ∉ vs.map Prod.fst)) : ∃ n ∈ names, ∃ s',
      bindParams (.free i) names args m = .failed (.fault (.nameTaken n)) { m with store := s' } ∧
      s.Retains s.objects.size s' := by
  induction names generalizing m vs args with
  | nil => exact absurd ⟨List.nodup_nil, by simp⟩ htaken
  | cons name rest ih =>
    cases args with
    | nil => cases hlength
    | cons v values =>
      have haccepts := hnames name (List.mem_cons_self ..)
      by_cases hmem : name ∈ vs.map Prod.fst
      · have hrefusal : (m.store.newCell (.const v)).2.refusal? (.free i) name =
            some (.nameTaken name) := h.refusal?_of_mem haccepts hmem
        refine ⟨name, List.mem_cons_self .., (m.store.newCell (.const v)).2, ?_,
          h.retains.trans (.newCell _ m.store (.const v))⟩
        have hdefine : defineConst (.free i) name v m =
            .failed (.fault (.nameTaken name))
              { m with store := (m.store.newCell (.const v)).2 } := by
          rw [defineConst, bind_run_done (newCell_run _ m), define]
          simp only [quiet, hrefusal]
        rw [bindParams, bind_run, hdefine]
      · have hrun := defineConst_run (h.refusal? haccepts hmem) (v := v) m
        have hlater : ¬ (rest.Nodup ∧ ∀ n ∈ rest, n ∉ ((name, v) :: vs).map Prod.fst) := by
          rintro ⟨hnodup, hnew⟩
          refine htaken ⟨List.nodup_cons.mpr ⟨fun hrest => ?_, hnodup⟩, ?_⟩
          · exact hnew name hrest (List.mem_cons_self ..)
          · refine List.forall_mem_cons.mpr ⟨hmem, fun n hn hbound => hnew n hn ?_⟩
            exact List.mem_cons_of_mem _ hbound
        obtain ⟨n, hn, s', hrest, hretains⟩ := ih (m := { m with
            store := m.store.addConst (.free i) name v }) (h.addConst hmem v) (Nat.succ.inj hlength)
          (fun n hn => hnames n (List.mem_cons_of_mem _ hn)) hlater
        exact ⟨n, List.mem_cons_of_mem _ hn, s', by rw [bindParams, bind_run_done hrun, hrest],
          hretains⟩

/-- Where arguments are not taken, there is more in the store, and nothing else has happened. -/
theorem runCode_refuses {caller : String} {f : Fault} (hs : m.store.Retains m.store.objects.size s)
    (htake : takeArguments caller code (.free m.store.tables.size) args
      (m.push a).tabled =
        .failed (.fault f) { m.push a with store := s }) : ∃ m',
      (withActivation a (runCode k caller this code args)).Reaches m (fail f) m' ∧
      m.Retains m.store.objects.size m' := by
  have hnew : newTable (m.push a) = .done (.free m.store.tables.size)
      (m.push a).tabled := rfl
  have hsilent : newTable.moments (m.push a) = [] := moments_quiet _ _
  have hrun : runCode k caller this code args (m.push a) =
      .failed (.fault f) { m.push a with store := s } := by
    rw [runCode, bind_run_done hnew, bind_run, htake]
  refine ⟨({ m.push a with store := s } : Machine).pop, .of_resumes ⟨?_, ?_⟩,
    ⟨hs, rfl, rfl, rfl, rfl, rfl⟩⟩
  · simp only [withActivation, on, ensuring, ending, hrun]
    rfl
  · have hmoments : (runCode k caller this code args).moments (m.push a) = [] := by
      rw [runCode, moments_bind_done hnew, moments_bind, htake, silent_takeArguments, hsilent]
      rfl
    simp [withActivation, ensuring, hmoments, fail]

/-- The arguments of code are counted, and bound to parameters of different names. -/
theorem runCode_counts (hparams : code.params = .fixed names)
    (hnames : ∀ n ∈ names, NameRule.symbol.accepts n = true) (ha : a.name = code.name)
    (caller : String) :
    (withActivation a (runCode k caller this code args)).Counts m caller code names args
      (enter k code.body this args) := by
  have htable := Store.Furnished.newTable m.store
  refine ⟨fun hlength hnodup => ?_, fun hlength => ?_, fun hlength hnodup => ?_⟩
  · obtain ⟨i, s, hfurnished, hrun⟩ :=
      runCode_enters k m this hlength hnames hnodup
    exact ⟨_, _, .of_resumes (hrun code a caller hparams), .of_furnished hfurnished a, ha⟩
  · refine runCode_refuses htable.retains ?_
    rw [takeArguments, hparams]
    simp only [if_pos hlength]
    rfl
  · obtain ⟨n, hn, s, hbind, hretains⟩ := bindParams_taken
      (m := (m.push a).tabled) htable hlength hnames
      fun h => hnodup h.1
    refine ⟨n, hn, runCode_refuses hretains ?_⟩
    rw [takeArguments, hparams]
    simp only [hlength, ne_eq, not_true_eq_false, if_false]
    exact hbind

/-- What is no code by itself is asked for its call operator. -/
theorem invoke_object (hf : m.store.code? f = none) (k : Inner) (receiver : Option ObjectId)
    (args : List ObjectId) :
    (invoke k f receiver args).Resumes m (dispatch k f "()" args) m := by
  have hkind : see (·.kind f) m = .done (m.store.kind f) m := rfl
  refine (Resumes.bind hkind (moments_quiet _ m)).trans ?_
  rw [Store.code?] at hf
  cases hcase : m.store.kind f with
  | method owner code =>
    rw [hcase] at hf
    cases hf
  | function code =>
    rw [hcase] at hf
    cases hf
  | closure code captured =>
    rw [hcase] at hf
    cases hf
  | _ => exact ⟨rfl, rfl⟩

theorem accepts_params {R : TableId} (hcode : code.Proper R)
    (hparams : code.params = .fixed names) :
    ∀ n ∈ names, NameRule.symbol.accepts n = true := fun n hn =>
  hcode.params names hparams (.name .symbol n) (List.mem_map.mpr ⟨n, hn, rfl⟩)

end Eval

namespace Machine

variable {m₀ m m₁ m' : Machine} {code : Code} {names : List String} {args : List ObjectId}
  {receiver : Option ObjectId} {target : ObjectId} {c : CellId} {d : Nat}

/-- A machine on which calls can be made. -/
structure Poised (m : Machine) : Prop where
  sound : m.Sound .any
  proper : m.Proper initial.modules

theorem Reachable.poised (h : Reachable m) : m.Poised := ⟨h.sound, h.proper⟩

theorem Poised.ready (h : m.Poised) : Ready .any 0 m := h.sound.ready

/-- The machine that a civil routine leaves can make calls as well, from the same activation. -/
theorem Poised.next {α : Type} {x : Routine α} {Q : α → List Moment → Store → Prop} (h : m.Poised)
    (hgoes : x.Goes .any 0 m Q) (hcivil : x.Civil (.none : Licence initial.modules))
    (hend : (x m).machine? = some m') : m'.Poised ∧ m'.runningName = m.runningName := by
  obtain ⟨hpath, hkept⟩ := hgoes.ended hend
  have hproper := ((hcivil.behaves m h.proper trivial).ends m' hend).proper h.proper
  refine ⟨⟨(hpath.onward h.sound.ready).sound, hproper⟩, ?_⟩
  rw [runningName, runningName]
  generalize m.stack = l at hkept
  generalize m'.stack = l' at hkept
  cases hkept with
  | empty => rfl
  | running rest hextends =>
    obtain ⟨extra, rfl, -⟩ := hextends
    rfl

/-- A call of code by itself, directly or with a receiver, also where more has been made since. -/
theorem Poised.invoke_backed (h : m₀.Poised) (hbacked : Eval.Backed m₀ m)
    (hf : m₀.store.code? f = some code) (hparams : code.params = .fixed names) (k : Inner)
    (receiver : Option ObjectId) (args : List ObjectId) :
    (Eval.invoke k f receiver args).Counts m m.runningName code names args
      (Eval.enter k code.body (m₀.store.subject f receiver) args) := by
  have hproper := h.proper.store.kinds f
  have hread : Routine.read (·.runningName) m = .done m.runningName m := rfl
  have hkind : see (·.kind f) m = .done (m₀.store.kind f) m := by
    have hne : m₀.store.kind f ≠ .plain := by
      intro hplain
      rw [Store.code?, hplain] at hf
      cases hf
    rw [← hbacked.grows.kind f (Store.has_of_kind hne)]
    rfl
  rw [Store.code?] at hf
  rw [Store.subject]
  split at hf
  · next owner c hcase =>
    cases hf
    rw [hcase] at hproper hkind ⊢
    have hnames := Eval.accepts_params hproper hparams
    obtain ⟨v, hnothing⟩ := hbacked.nothing h.sound k
    obtain ⟨a, m₁, hcall, hretains, -, hname, -⟩ :=
      Eval.callMethod_run (Eval.superOf_finds hnothing owner) code receiver args
    refine .of_reaches (.trans (.of_resumes (.bind hkind (moments_quiet _ m))) hcall) hretains ?_
    exact Eval.runCode_counts hparams hnames hname _
  · next c hcase =>
    cases hf
    rw [hcase] at hproper hkind ⊢
    have hnames := Eval.accepts_params hproper hparams
    have hretains : m.Retains m.store.objects.size
        m.tabled := .of_store (.newTable _ _ _)
    obtain ⟨a, hnew, hname⟩ : ∃ a, newActivation f code.name code.home m =
        .done a m.tabled ∧ a.name = code.name := by
      cases hhome : code.home <;> exact ⟨_, rfl, rfl⟩
    refine .of_reaches (.of_resumes (.trans (.bind hkind (moments_quiet _ m)) ?_)) hretains
      (Eval.runCode_counts hparams hnames hname _)
    exact (Resumes.bind hread (moments_quiet _ m)).trans
      (.bind hnew (Eval.silent_newActivation f code.name code.home m))
  · next c captured hcase =>
    cases hf
    rw [hcase] at hproper hkind ⊢
    have hnames := Eval.accepts_params hproper.1 hparams
    refine .of_reaches (.of_resumes (.trans (.bind hkind (moments_quiet _ m)) ?_)) (.refl _ m)
      (Eval.runCode_counts hparams hnames (a := captured.renamed code.name) rfl _)
    exact .bind hread (moments_quiet _ m)
  · cases hf

theorem Poised.invoke_counts (h : m.Poised) (hf : m.store.code? f = some code)
    (hparams : code.params = .fixed names) (k : Inner) (receiver : Option ObjectId)
    (args : List ObjectId) : (Eval.invoke k f receiver args).Counts m m.runningName code names args
      (Eval.enter k code.body (m.store.subject f receiver) args) :=
  h.invoke_backed (.refl m) hf hparams k receiver args

/-- A call fails over its arguments, or where its code does. -/
theorem Poised.invoke_failed (h : m₀.Poised) (hbacked : Eval.Backed m₀ m)
    (hf : m₀.store.code? f = some code) (hparams : code.params = .fixed names) {k : Inner}
    {e : Error} (hfails : Eval.invoke k f receiver args m = .failed e m') :
    (∃ caller n i, e = .fault (.arity caller code.name n i)) ∨ (∃ n, e = .fault (.nameTaken n)) ∨
      ∃ m₁ m₂, Eval.Backed m₀ m₁ ∧ m₁.stack ≠ [] ∧
        Eval.enter k code.body (m₀.store.subject f receiver) args m₁ = .failed e m₂ := by
  have hcounts := h.invoke_backed hbacked hf hparams k receiver args
  by_cases hlength : names.length = args.length
  · by_cases hnodup : names.Nodup
    · obtain ⟨a, m₁, hruns, hentered, -⟩ := hcounts.runs hlength hnodup
      rw [hruns.run] at hfails
      simp only [ensuring, ending] at hfails
      split at hfails
      · cases hfails
      · next e' m₂ hrun =>
        cases hfails
        refine Or.inr (Or.inr ⟨m₁, m₂, hbacked.within hentered.toWithin, ?_, hrun⟩)
        rw [hentered.stack]
        exact List.cons_ne_nil _ _
      · cases hfails
    · obtain ⟨n, -, m₁, hruns, -⟩ := hcounts.repeated hlength hnodup
      rw [hruns.run] at hfails
      cases hfails
      exact Or.inr (Or.inl ⟨n, rfl⟩)
  · obtain ⟨m₁, hruns, -⟩ := hcounts.miscounted hlength
    rw [hruns.run] at hfails
    cases hfails
    exact Or.inl ⟨_, _, _, rfl⟩

/-- An operator is called on its target, unless it is the target itself. -/
theorem Poised.dispatch_counts (h : m.Poised) {op : String}
    (hc : m.store.lookup (.part target .operators) op = some c) (hcell : m.store.cell c = .const f)
    (hf : m.store.code? f = some code) (hparams : code.params = .fixed names) (d : Nat) :
    (Eval.dispatch (.ofDepth (d + 1)) target op args).Counts m m.runningName code names args
      (Eval.enter (.ofDepth d) code.body
        (m.store.subject f (if f = target then none else some target)) args) := by
  refine .of_reaches (Eval.dispatch_const hc hcell (.ofDepth (d + 1)) args) (.refl _ m) ?_
  exact h.invoke_counts hf hparams (.ofDepth d) _ args

/-- The routine calls an object on the machine, with a receiver and arguments: directly, as an
operator of another object, since the callee is no code by itself, or as a getter. -/
inductive Calls (d : Nat) (m : Machine) : Routine ObjectId → ObjectId → Option ObjectId →
    List ObjectId → Prop where
  | direct (f : ObjectId) (receiver : Option ObjectId) (args : List ObjectId) :
      Calls d m (Eval.invoke (.ofDepth d) f receiver args) f receiver args
  | operator {target f : ObjectId} {op : String} {c : CellId} (args : List ObjectId)
      (hc : m.store.lookup (.part target .operators) op = some c)
      (hcell : m.store.cell c = .const f) :
      Calls d m (Eval.dispatch (.ofDepth (d + 1)) target op args) f
        (if f = target then none else some target) args
  | object {target f : ObjectId} {c : CellId} (receiver : Option ObjectId) (args : List ObjectId)
      (htarget : m.store.code? target = none)
      (hc : m.store.lookup (.part target .operators) "()" = some c)
      (hcell : m.store.cell c = .const f) :
      Calls d m (Eval.invoke (.ofDepth (d + 1)) target receiver args) f
        (if f = target then none else some target) args
  | getter {c : CellId} {g : ObjectId} {setter : Option ObjectId} (via : Route)
      (receiver : Option ObjectId) (hcell : m.store.cell c = .computed g setter) :
      Calls d m (Eval.readVia (.ofDepth (d + 1)) via c receiver) g receiver []

theorem Poised.counts (h : m.Poised) {x : Routine ObjectId} (hx : Calls d m x f receiver args)
    (hf : m.store.code? f = some code) (hparams : code.params = .fixed names) :
    x.Counts m m.runningName code names args
      (Eval.enter (.ofDepth d) code.body (m.store.subject f receiver) args) := by
  cases hx with
  | direct => exact h.invoke_counts hf hparams _ _ _
  | operator _ hc hcell => exact h.dispatch_counts hc hcell hf hparams d
  | @object target _ c receiver _ htarget hc hcell =>
    exact .of_reaches (.of_resumes (Eval.invoke_object htarget _ receiver args)) (.refl _ m)
      (h.dispatch_counts hc hcell hf hparams d)
  | @getter c _ setter via receiver hcell =>
    have hsee : see (·.cell c) m = .done (.computed f setter) m := by
      rw [← hcell]
      rfl
    exact .of_reaches (.trans (.touch rfl _ m) (.of_resumes (.bind hsee (moments_quiet _ m))))
      (.refl _ m) (h.invoke_counts hf hparams (.ofDepth d) receiver [])

/-- Wherever a run has got to, and whatever operands are evaluated then, calls can be made. A call
of code with a fixed list of parameters, by whatever route it is made, comes to the body of the code
if there is one argument for each parameter and the parameters have different names. Otherwise it
fails, with an arity error that names the calling activation or with the parameter that is there
twice, and leaves call stack, output and all that was in the store as they were. What an operator is
bound to is always such code. -/
theorem arity_checked_first :
    (∀ m, Reachable m → m.Poised ∧ ∀ target op c,
      m.store.lookup (.part target .operators) op = some c →
        ∃ f code, m.store.cell c = .const f ∧ m.store.code? f = some code) ∧
    (∀ m, m.Poised → ∀ d e, Mention.Each Mention.Proper e.mentions → ∀ m',
      (Eval.evaluate (.ofDepth d) e m).machine? = some m' →
        m'.Poised ∧ m'.runningName = m.runningName) ∧
    ∀ m, m.Poised → ∀ code names, code.params = .fixed names → ∀ d,
      (∀ x f receiver args, Calls d m x f receiver args → m.store.code? f = some code →
        x.Counts m m.runningName code names args
          (Eval.enter (.ofDepth d) code.body (m.store.subject f receiver) args)) ∧
      (∀ via c g f receiver v, m.store.cell c = .computed g (some f) → m.store.code? f = some code →
        (Eval.writeVia (.ofDepth (d + 1)) via c receiver v).Counts m m.runningName code names [v]
          (Functor.discard (Eval.enter (.ofDepth d) code.body (m.store.subject f receiver) [v]))) ∧
      ∀ target name args f m₁, m.store.HasObject target →
        Eval.getMember (.ofDepth (d + 1)) target name m = .done f m₁ →
        m₁.store.code? f = some code →
          Eval.callMember (.ofDepth (d + 1)) target name args m =
              Eval.invoke (.ofDepth d) f (some target) args m₁ ∧
            (Eval.callMember (.ofDepth (d + 1)) target name args).moments m =
              (Eval.getMember (.ofDepth (d + 1)) target name).moments m ++
                (Eval.invoke (.ofDepth d) f (some target) args).moments m₁ ∧
            (Eval.invoke (.ofDepth d) f (some target) args).Counts m₁ m.runningName code names args
              (Eval.enter (.ofDepth d) code.body (m₁.store.subject f (some target)) args) := by
  refine ⟨fun m h => ⟨h.poised, fun target op c hc => ?_⟩, fun m h d e he m' hend => ?_,
    fun m h code names hparams d => ⟨?_, ?_, ?_⟩⟩
  · obtain ⟨f, hf, ⟨_, -, hperforms⟩, -⟩ := h.guarded.store.operator hc
    obtain ⟨code, hcode⟩ := Store.exists_code hperforms.callable
    exact ⟨f, code, hf, hcode⟩
  · exact h.next (Eval.evaluate_goes (good_ofDepth .any d) h.ready fun b _ => Stock.any_block b)
      ((Inner.civil_ofDepth _ d).evaluate (Discipline.civil_takes he)) hend
  · exact fun x f receiver args hx hf => h.counts hx hf hparams
  · intro via c g f receiver v hcell hf
    have hsee : see (·.cell c) m = .done (.computed g (some f)) m := by
      rw [← hcell]
      rfl
    exact .of_reaches (.trans (.touch rfl _ m) (.of_resumes (.bind hsee (moments_quiet _ m))))
      (.refl _ m) (h.invoke_counts hf hparams (.ofDepth d) receiver [v]).discard
  · intro target name args f m₁ htarget hget hf
    obtain ⟨hpoised, hname⟩ := h.next
      (Eval.getMember_goes (good_ofDepth .any _) h.ready htarget name)
      ((Inner.civil_ofDepth _ _).getMember target name) (show _ = some m₁ by rw [hget]; rfl)
    refine ⟨bind_run_done hget, moments_bind_done hget, ?_⟩
    rw [← hname]
    exact hpoised.invoke_counts hf hparams _ _ args

/-- A function of one parameter is called without an argument, and with one. -/
theorem arity_checked_first_sample : ∃ m f code x, Reachable m ∧
    m.store.kind f = .function code ∧ code.params = .fixed [x] ∧
    (∃ m', Eval.invoke (.ofDepth 3) f none [] m =
        .failed (.fault (.arity m.runningName code.name 1 0)) m' ∧
      m.Retains m.store.objects.size m') ∧
    ∃ a m₁, (Eval.invoke (.ofDepth 3) f none [f]).Reaches m
      ((Eval.enter (.ofDepth 3) code.body f [f]).ensuring leave) m₁ ∧ m.Entered a [(x, f)] m₁ := by
  obtain ⟨m, hend, -, -, f, -, code, hkind, x, hparams⟩ := sample_function
  have hreachable : Reachable m := .between (.next .start 24 sampleSource hend)
  have hcode : m.store.code? f = some code := by rw [Store.code?, hkind]
  obtain ⟨hpoised, -, hcalls⟩ := arity_checked_first
  have hcounts := fun args => (hcalls m (hpoised m hreachable).1 code [x] hparams 3).1 _ f none args
    (.direct f none args) hcode
  obtain ⟨m', hfails, hretains⟩ := (hcounts []).miscounted (by simp)
  obtain ⟨a, m₁, hruns, hentered, -⟩ := (hcounts [f]).runs rfl (by simp)
  have hsubject : m.store.subject f none = f := by rw [Store.subject, hkind]
  rw [hsubject] at hruns
  exact ⟨m, f, code, x, hreachable, hkind, hparams, ⟨m', hfails.run, hretains⟩, a, m₁, hruns,
    hentered⟩

end Machine

end ObjectLang
