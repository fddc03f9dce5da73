import ObjectLang.Proofs.Eval.Access
import ObjectLang.Proofs.Store.Retains

/-!
Entering the activation of a method.
Before the body of a method runs, its activation is made: it belongs to the level that the method
was defined on, and binds `self` and `super`. This cannot fail and only adds to the store. The body
of a primitive then runs in one scope more, and everything is taken off again when it is done.
-/
namespace ObjectLang

open Machine Routine

/-- The activation finds the given objects under the names `self` and `super`. -/
structure Activation.Knows (a : Activation) (s : Store) (self super : ObjectId) : Prop where
  self : ∃ c, s.lookupIn a.scopes "self" = some c ∧ s.cell c = .const self
  super : ∃ c, s.lookupIn a.scopes "super" = some c ∧ s.cell c = .const super

variable {a : Activation}

namespace Machine

variable {m m₁ m₂ : Machine} {n : Nat}

/-- The second machine is the first one within one more activation. -/
structure Within (m : Machine) (a : Activation) (m' : Machine) : Prop where
  store : m.store.Retains m.store.objects.size m'.store
  stack : m'.stack = a :: m.stack
  builtins : m'.builtins = m.builtins
  modules : m'.modules = m.modules
  roots : m'.roots = m.roots
  sink : m'.sink = m.sink

/-- The innermost scope of the activation is new and binds just the given values. -/
structure Entered (m : Machine) (a : Activation) (vs : List (String × ObjectId)) (m' : Machine) :
    Prop extends m.Within a m' where
  scope : ∃ i rest, a.scopes = .free i :: rest ∧ m.store.Furnished i vs m'.store

def leave (m : Machine) : Machine := (m.modifyTop Activation.popScope).pop

/-- An activation is pushed, with one scope more. -/
theorem Entered.of_furnished {i : Nat} {s : Store} {vs : List (String × ObjectId)}
    (h : m.store.Furnished i vs s) (a : Activation) :
    m.Entered (a.pushScope (.free i)) vs { m.push (a.pushScope (.free i)) with store := s } :=
  ⟨⟨h.retains, rfl, rfl, rfl, rfl, rfl⟩, i, a.scopes, rfl, h⟩

theorem Within.retains (h : m.Within a m₁) (h' : m₁.Retains m₁.store.objects.size m₂) :
    m.Within a m₂ where
  store := h.store.trans (h'.store.mono h.store.sizes.objects)
  stack := h'.stack.trans h.stack
  builtins := h'.builtins.trans h.builtins
  modules := h'.modules.trans h.modules
  roots := h'.roots.trans h.roots
  sink := h'.sink.trans h.sink

/-- An activation is entered on a machine that only has more. -/
theorem Within.of_retains (h : m.Retains m.store.objects.size m₁) (h' : m₁.Within a m₂) :
    m.Within a m₂ where
  store := h.store.trans (h'.store.mono h.store.sizes.objects)
  stack := by rw [h'.stack, h.stack]
  builtins := h'.builtins.trans h.builtins
  modules := h'.modules.trans h.modules
  roots := h'.roots.trans h.roots
  sink := h'.sink.trans h.sink

theorem Entered.of_retains {vs : List (String × ObjectId)} (h : m.Retains m.store.objects.size m₁)
    (h' : m₁.Entered a vs m₂) : m.Entered a vs m₂ := by
  obtain ⟨i, rest, hscopes, hfurnished⟩ := h'.scope
  exact ⟨.of_retains h h'.toWithin, i, rest, hscopes, .of_retains h.store hfurnished⟩

theorem store_leave (m : Machine) : m.leave.store = m.store := by
  obtain ⟨store, stack, builtins, modules, roots, sink, log⟩ := m
  cases stack <;> rfl

/-- Whatever was only added to within an activation has only been added to in the end. -/
theorem Within.leave (h : m.Within a m₁) (h' : m₁.Retains m.store.objects.size m₂) :
    m.Retains m.store.objects.size m₂.leave := by
  have hstack : m₂.stack = a :: m.stack := h'.stack.trans h.stack
  simp only [Machine.leave, modifyTop, hstack, pop]
  exact ⟨h.store.trans h'.store, rfl, h'.builtins.trans h.builtins, h'.modules.trans h.modules,
    h'.roots.trans h.roots, h'.sink.trans h.sink⟩

end Machine

namespace Eval

variable {W : Stock} {k : Inner} {m : Machine} {owner this base : ObjectId} {names : List String}
  {args : List ObjectId}

section Silent

theorem silent_defineLocal (a : Activation) (name : String) (c : CellId) :
    (defineLocal a name c).Silent := by
  rw [defineLocal]
  split <;> exact silent_quiet _

theorem silent_newActivation (owner : ObjectId) (name : String) (home : Option TableId) :
    (newActivation owner name home).Silent := by
  refine (silent_quiet _).bind fun _ => (silent_quiet _).bind fun _ => ?_
  cases home <;> exact silent_pure _

theorem silent_bindParams (t : TableId) (names : List String) (args : List ObjectId) :
    (bindParams t names args).Silent := by
  induction names generalizing args with
  | nil => exact silent_pure ()
  | cons name rest ih =>
    cases args with
    | nil => exact silent_pure ()
    | cons v values => exact (silent_defineConst t name v).bind fun _ => ih values

theorem silent_takeArguments (caller : String) (code : Code) (scope : TableId)
    (args : List ObjectId) : (takeArguments caller code scope args).Silent := by
  rw [takeArguments]
  split
  · split
    · exact silent_quiet _
    · exact silent_bindParams _ _ _
  · exact silent_pure ()

end Silent

/-- What lies below a level, or nothing. -/
theorem superOf_finds {v : ObjectId} (hnothing : (nothing k).Finds m v) (o : ObjectId) :
    (superOf k o).Finds m ((m.store.base o).getD v) := by
  have hsee : see (·.base o) m = .done (m.store.base o) m := rfl
  have hsilent : (see (·.base o)).moments m = [] := moments_quiet _ m
  cases hbase : m.store.base o with
  | some b =>
    rw [hbase] at hsee
    refine ⟨by rw [superOf, bind_run_done hsee]; rfl, still_of_silent ?_⟩
    rw [superOf, moments_bind_done hsee, hsilent]
    exact moments_pure b m
  | none =>
    rw [hbase] at hsee
    refine ⟨by rw [superOf, bind_run_done hsee]; exact hnothing.run, ?_⟩
    rw [superOf, Still, moments_bind_done hsee, hsilent]
    exact hnothing.still

theorem accepts_self : NameRule.symbol.accepts "self" = true := by decide

theorem accepts_super : NameRule.symbol.accepts "super" = true := by decide

section Furnished

variable {s : Store} {i : Nat} {vs : List (String × ObjectId)} {name : String}

/-- Parameters with names of their own are bound to the arguments. -/
theorem bindParams_furnished {s₀ : Store} (h : s.Furnished i vs s₀)
    (hlength : names.length = args.length)
    (hnames : ∀ n ∈ names, NameRule.symbol.accepts n = true) (hnodup : names.Nodup)
    (hnew : ∀ n ∈ names, n ∉ vs.map Prod.fst) : ∃ s',
      (∀ m : Machine, m.store = s₀ →
        bindParams (.free i) names args m = .done () { m with store := s' }) ∧
      s.Furnished i ((names.zip args).reverse ++ vs) s' := by
  induction names generalizing s₀ vs args with
  | nil => exact ⟨s₀, fun m hm => hm ▸ rfl, h⟩
  | cons name rest ih =>
    obtain ⟨hnot, hrest⟩ := List.nodup_cons.mp hnodup
    cases args with
    | nil => cases hlength
    | cons v values =>
      have hmem := List.mem_cons_self (a := name) (l := rest)
      obtain ⟨s', hrun, hlast⟩ := ih (h.addConst (hnew name hmem) v) (Nat.succ.inj hlength)
        (fun n hn => hnames n (List.mem_cons_of_mem _ hn)) hrest (fun n hn hbound => by
          rcases List.mem_cons.mp hbound with rfl | hold
          · exact hnot hn
          · exact hnew n (List.mem_cons_of_mem _ hn) hold)
      refine ⟨s', fun m hm => ?_, by simpa using hlast⟩
      subst hm
      have hfirst := defineConst_run (h.refusal? (hnames name hmem) (hnew name hmem)) (v := v) m
      rw [bindParams, bind_run_done hfirst, hrun _ rfl]

/-- A constant in the innermost scope of an activation that is not running yet. -/
theorem defineOwn_furnished {β : Type} {rest : List TableId} {x : Routine β}
    (ha : a.scopes = .free i :: rest) (h : s.Furnished i vs m.store)
    (hname : NameRule.symbol.accepts name = true) (hnew : name ∉ vs.map Prod.fst) (v : ObjectId)
    (t : Task) :
    (newCell (.const v) >>= fun c => (defineLocal a name c).doing t >>= fun _ => x).Resumes m
      x { m with store := m.store.addConst (.free i) name v } := by
  have hdefine : (defineLocal a name ⟨m.store.cells.size⟩).doing t
      { m with store := (m.store.newCell (.const v)).2 } =
      .done () { m with store := m.store.addConst (.free i) name v } := by
    have hfree : (m.store.newCell (.const v)).2.refusal? (.free i) name = none :=
      h.refusal? hname hnew
    rw [doing_run, defineLocal, ha]
    exact define_run hfree m
  refine (Resumes.bind (newCell_run _ m) (moments_quiet _ m)).trans (.bind hdefine ?_)
  exact (Terse.doing (silent_defineLocal a name _) t).moments_of_done hdefine

end Furnished

/-- The activation of a method is made, and knows what it should. But for its name, it is the same
whatever the method is called. -/
theorem ownedActivation_run (hsuper : (superOf k owner).Finds m base) (this : ObjectId)
    (home : Option TableId) : ∃ (a : Activation) (m₁ : Machine),
      (∀ name, (ownedActivation k owner this name home).Reaches m (pure (a.renamed name)) m₁) ∧
      m.Retains m.store.objects.size m₁ ∧ a.owner = owner ∧
      a.Knows m₁.store (m.store.face this) base := by
  let t : TableId := .free m.store.tables.size
  let a : Activation := ⟨owner, "", t :: (home.toList ++ [m.builtins]), home.getD t, []⟩
  let m₁ : Machine := m.tabled
  let m₂ : Machine := { m with store := m₁.store.addConst t "self" (m.store.face this) }
  let m₃ : Machine := { m with store := m₂.store.addConst t "super" base }
  have hfirst : m.store.Furnished _ [] m₁.store := .newTable m.store
  have hself : m.store.Furnished _ _ m₂.store := hfirst.addConst (by simp) (m.store.face this)
  have hboth : m.store.Furnished _ _ m₃.store := hself.addConst (by simp) base
  have hknows : ∀ n v, (n, v) ∈ [("super", base), ("self", m.store.face this)] →
      ∃ c, m₃.store.lookupIn a.scopes n = some c ∧ m₃.store.cell c = .const v := by
    intro n v hmem
    obtain ⟨c, hc, -, hv⟩ := hboth.values n v hmem
    exact ⟨c, by rw [Store.lookupIn, List.findSome?_cons, Store.lookup_of_local? hc], hv⟩
  refine ⟨a, m₃, fun name => ?_, .of_store hboth.retains, rfl, hknows _ _ (by simp),
    hknows _ _ (by simp)⟩
  have hnew : newActivation owner name home m = .done (a.renamed name) m₁ := by cases home <;> rfl
  have hsilent := silent_newActivation owner name home m
  have hface : see (·.face this) m₁ = .done (m.store.face this) m₁ := rfl
  rw [ownedActivation]
  refine .trans (.bind hsuper.run hsuper.still) (.of_resumes ?_)
  refine (Resumes.bind hnew hsilent).trans ((Resumes.bind hface (moments_quiet _ m₁)).trans ?_)
  exact (defineOwn_furnished (m := m₁) rfl hfirst accepts_self (by simp) _ _).trans
    (defineOwn_furnished (m := m₂) rfl hself accepts_super (by simp) _ _)

/-- A method is called within an activation of its own. -/
theorem callMethod_run (hsuper : (superOf k owner).Finds m base) (code : Code)
    (receiver : Option ObjectId) (args : List ObjectId) : ∃ a m₁,
      (callMethod k owner code receiver args).Reaches m
        (withActivation a (runCode k m.runningName (receiver.getD owner) code args)) m₁ ∧
      m.Retains m.store.objects.size m₁ ∧ a.owner = owner ∧ a.name = code.name ∧
      a.Knows m₁.store (m.store.face (receiver.getD owner)) base := by
  obtain ⟨a, m₁, hrun, hretains, howner, hself, hbase⟩ :=
    ownedActivation_run hsuper (receiver.getD owner) code.home
  refine ⟨a.renamed code.name, m₁, ?_, hretains, howner, rfl, hself, hbase⟩
  have hread : Routine.read (·.runningName) m = .done m.runningName m := rfl
  rw [callMethod]
  exact .trans (.of_resumes (.bind hread (moments_quiet _ m))) ((hrun code.name).bind_pure _)

/-- Once its arguments are bound, the body of code runs in the scope that binds them, whatever the
activation is. -/
theorem runCode_enters (k : Inner) (m : Machine) (this : ObjectId)
    (hlength : names.length = args.length) (hnames : ∀ n ∈ names, NameRule.symbol.accepts n = true)
    (hnodup : names.Nodup) : ∃ i s,
      m.store.Furnished i (names.zip args).reverse s ∧
      ∀ (code : Code) a caller, code.params = .fixed names →
        (withActivation a (runCode k caller this code args)).Resumes m
          ((enter k code.body this args).ensuring leave)
          { m.push (a.pushScope (.free i)) with store := s } := by
  let i := m.store.tables.size
  obtain ⟨s, hbind, hfurnished⟩ :=
    bindParams_furnished (.newTable m.store) hlength hnames hnodup (by simp)
  rw [List.append_nil] at hfurnished
  refine ⟨i, s, hfurnished, fun code a caller hparams => ?_⟩
  let m₁ : Machine := (m.push a).tabled
  let m₂ : Machine := { m.push (a.pushScope (.free i)) with store := s }
  have htake : takeArguments caller code (.free i) args m₁ = .done () { m₁ with store := s } := by
    rw [takeArguments, hparams]
    simp only [hlength, ne_eq, not_true_eq_false, if_false]
    exact hbind m₁ rfl
  have hcode : (runCode k caller this code args).Resumes (m.push a)
      ((enter k code.body this args).ensuring (·.modifyTop Activation.popScope)) m₂ := by
    have hnew : newTable (m.push a) = .done (.free i) m₁ := rfl
    have hpeek : peek 0 { m₁ with store := s } = .done a { m₁ with store := s } := rfl
    rw [runCode]
    refine (Resumes.bind hnew (moments_quiet _ _)).trans ?_
    refine (Resumes.bind htake (silent_takeArguments ..)).trans ?_
    exact (Resumes.bind hpeek (moments_quiet _ _)).trans (.bind rfl (moments_quiet _ _))
  constructor
  · have hrun := hcode.run
    simp only [withActivation, on, ensuring, ending] at hrun ⊢
    rw [hrun]
    cases enter k code.body this args m₂ <;> rfl
  · simpa [withActivation, ensuring] using hcode.moments

/-- A block runs in a new scope of the running activation. -/
theorem runBody_enters (hstack : m.stack ≠ []) (b : Block) : ∃ m₁,
    (runBody k b).Resumes m
      ((Flow.value <$> k.execute b).ensuring (·.modifyTop Activation.popScope)) m₁ ∧
    m.store.Retains m.store.objects.size m₁.store ∧ m₁.builtins = m.builtins := by
  obtain ⟨a, rest, hstack⟩ := List.exists_cons_of_ne_nil hstack
  let m₁ : Machine := m.tabled
  let t : TableId := .free m.store.tables.size
  have hnew : newTable m = .done t m₁ := rfl
  have hpeek : peek 0 m₁ = .done a m₁ := by simp [peek, quiet, m₁, hstack]
  have hopened : m₁.modifyTop (·.pushScope t) = { m₁ with stack := a.pushScope t :: rest } := by
    rw [modifyTop, show m₁.stack = a :: rest from hstack]
  refine ⟨{ m₁ with stack := a.pushScope t :: rest }, ?_, .newTable _ _ _, rfl⟩
  rw [runBody, ← hopened]
  exact (Resumes.bind hnew (moments_quiet _ m)).trans
    ((Resumes.bind hpeek (moments_quiet _ m₁)).trans (.bind rfl (moments_quiet _ m₁)))

/-- A primitive is performed within the activation of its method, once its arguments are bound. -/
theorem callMethod_primitive (hsuper : (superOf k owner).Finds m base) (code : Code)
    (receiver : Option ObjectId) (args : List ObjectId) {p : Primitive}
    (hparams : code.params = .fixed names) (hbody : code.body = .primitive p)
    (hlength : names.length = args.length) (hnames : ∀ n ∈ names, NameRule.symbol.accepts n = true)
    (hnodup : names.Nodup) : ∃ a m₁,
      (callMethod k owner code receiver args).Reaches m
        ((perform k p (receiver.getD owner) args).ensuring leave) m₁ ∧ m.Within a m₁ := by
  obtain ⟨a, m₁, hcall, hretains, -⟩ := callMethod_run hsuper code receiver args
  obtain ⟨i, s, hfurnished, henter⟩ :=
    runCode_enters k m₁ (receiver.getD owner) hlength hnames hnodup
  have hrun := henter code a m.runningName hparams
  rw [hbody] at hrun
  exact ⟨_, _, hcall.trans (.of_resumes hrun),
    .of_retains hretains (Entered.of_furnished hfurnished a).toWithin⟩

end Eval

end ObjectLang
