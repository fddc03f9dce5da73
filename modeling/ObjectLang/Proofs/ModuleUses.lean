import ObjectLang.Proofs.Eval.Mirrors
import ObjectLang.Proofs.LiveExports
import ObjectLang.Proofs.Machine.Relocation
import ObjectLang.Proofs.MemberAgreement

/-!
The two ways of using a module.
What a module exports can be called under its own name, once it is imported, or as a member of an
alias of the module. The second way makes a string and enters an activation on the way, which leaves
nothing behind but things that no one knows. So the two calls have the same outcome, up to the
identities of what is made in the meantime; but a method is called with the alias as its receiver.
-/
namespace ObjectLang

open Machine Routine

/-- No identity is told of an object that is made on the way. -/
def Routine.Reticent {α : Type} (x : Routine α) (m : Machine) : Prop :=
  ∀ p ∈ x.moments m, ∀ o, p.deed = .identifies o → m.store.HasObject o

def Routine.Tacit {α : Type} (x : Routine α) (m : Machine) : Prop :=
  ∀ p ∈ x.moments m, ∀ o, p.deed ≠ .identifies o

namespace Routine.Tacit

variable {α β : Type} {x y : Routine α} {f : α → Routine β} {a : α} {m m' : Machine}

theorem reticent (h : x.Tacit m) : x.Reticent m := fun p hp o ho => absurd ho (h p hp o)

theorem of_resumes (h : x.Resumes m y m') (hy : y.Tacit m') : x.Tacit m := by
  rw [Tacit, h.moments]
  exact hy

theorem quiet (g : Machine → Outcome α) : (Routine.quiet g).Tacit m := by
  rw [Tacit, moments_quiet]
  simp

theorem pure (a : α) : (Pure.pure a : Routine α).Tacit m := quiet _

theorem bind_done (hrun : x m = .done a m') (hx : x.Tacit m) (hf : (f a).Tacit m') :
    (x >>= f).Tacit m := by
  intro p hp
  rw [moments_bind_done hrun] at hp
  rcases List.mem_append.mp hp with hp | hp
  · exact hx p hp
  · exact hf p hp

theorem ensuring (h : x.Tacit m) (g : Machine → Machine) : (x.ensuring g).Tacit m := by
  rw [Tacit, Routine.ensuring, moments_ending]
  exact h

theorem map (h : x.Tacit m) (g : α → β) : (g <$> x).Tacit m := by
  change (x >>= fun a => Pure.pure (g a)).Tacit m
  rw [Tacit, moments_bind_silent x fun _ => silent_pure _]
  exact h

theorem touch_reads {via : Route} {c : CellId} {y : Routine β} (hy : y.Tacit m) :
    (Routine.touch (.reads via c) >>= fun _ => y).Tacit m := by
  refine bind_done rfl (fun p hp o => ?_) hy
  rw [moments_touch, List.mem_singleton] at hp
  rw [hp]
  simp

end Routine.Tacit

/-- The outcomes are the same up to the identities of what was made after `m`. -/
def Outcome.Agrees {α : Type} [Movable α] (m : Machine) (r r' : Outcome α) : Prop :=
  ∃ ρ : Shift, ρ.Spares m.store ∧ r.Alike ρ r'

variable {s : Store} {param : String} {code : Code}

theorem Store.Gives.has {W : Stock} {v : ObjectId} {c : CellId} (h : s.Gives v c)
    (hw : s.Wellformed W) (hc : s.HasCell c) : s.HasObject v := by
  induction h with
  | @var c h =>
    have hfits := hw.cells c hc
    rwa [h] at hfits
  | @const c h =>
    have hfits := hw.cells c hc
    rwa [h] at hfits
  | @view c c' h _ ih =>
    have hfits := hw.cells c hc
    rw [h] at hfits
    exact ih hfits

/-- A cell gives one value. -/
theorem Store.Gives.unique {v w : ObjectId} {c : CellId} (h : s.Gives v c) (h' : s.Gives w c) :
    v = w := by
  induction h with
  | @var c h => cases h' <;> simp_all
  | @const c h => cases h' <;> simp_all
  | @view c x h _ ih =>
    cases h' with
    | var h' => cases h.symm.trans h'
    | const h' => cases h.symm.trans h'
    | view h' rest =>
      cases h.symm.trans h'
      exact ih rest

namespace Eval

variable {W : Stock} {k : Inner} {m m' : Machine} {f : ObjectId}

def callName (k : Inner) (name : String) (args : List ObjectId) : Routine ObjectId := do
  k.invoke (← getName k name) none args

/-- Only a method knows who receives a call. -/
theorem invoke_receiver (hf : ∀ owner code, m.store.kind f ≠ .method owner code) (k : Inner)
    (receiver receiver' : Option ObjectId) (args : List ObjectId) :
    (invoke k f receiver args).Resumes m (invoke k f receiver' args) m := by
  have hsee : see (·.kind f) m = .done (m.store.kind f) m := rfl
  have hsilent : (see (·.kind f)).moments m = [] := moments_quiet _ m
  refine (Resumes.bind hsee hsilent).trans (.trans ?_ (Resumes.bind hsee hsilent).symm)
  cases hkind : m.store.kind f with
  | method owner code => exact absurd hkind (hf owner code)
  | _ => exact ⟨rfl, rfl⟩

section Tacit

variable {v : ObjectId} {c : CellId}

theorem readCell_tacit (h : m.store.Gives v c) (d : Nat) (receiver : Option ObjectId) :
    (readCell (.ofDepth d) c receiver).Tacit m := by
  have hsee (c : CellId) : see (·.cell c) m = .done (m.store.cell c) m := rfl
  induction h generalizing d with
  | @var c h =>
    refine .of_resumes (.bind (hsee c) (moments_quiet _ m)) ?_
    rw [h]
    exact .pure v
  | @const c h =>
    refine .of_resumes (.bind (hsee c) (moments_quiet _ m)) ?_
    rw [h]
    exact .pure v
  | @view c c' h _ ih =>
    refine .of_resumes (.bind (hsee c) (moments_quiet _ m)) ?_
    rw [h]
    refine .touch_reads ?_
    cases d with
    | zero => exact .quiet _
    | succ d => exact ih d

/-- A block without statements tells no identity. -/
theorem runBody_tacit {m₀ : Machine} (hm₀ : m₀.Sound W) (hbacked : Backed m₀ m)
    (hstack : m.stack ≠ []) (d : Nat) : (runBody (.ofDepth d) []).Tacit m := by
  obtain ⟨m₁, hresumes, hretains, hbuiltins⟩ := runBody_enters (k := .ofDepth d) hstack []
  have hbacked₁ : Backed m₀ m₁ := ⟨hbacked.store.trans (hretains.mono hbacked.store.sizes.objects),
    hbuiltins.trans hbacked.builtins⟩
  obtain ⟨c, v, hc, hv⟩ := hm₀.nothing
  obtain ⟨hc, hv⟩ := hbacked₁.keeps_const hm₀ hc hv
  refine .of_resumes hresumes (.ensuring (.map ?_ _) _)
  cases d with
  | zero => exact .quiet _
  | succ d =>
    refine .bind_done (builtin_run hc hv _) ?_ (.pure _)
    exact .of_resumes (builtin_resumes hc _) (.touch_reads (readCell_tacit (.const hv) d none))

/-- Calling a function without statements tells no identity. -/
theorem invoke_tacit (h : m.Poised) (hkind : m.store.kind v = .function code)
    (hparams : code.params = .fixed [param]) (hbody : code.body = .block [])
    (receiver : Option ObjectId) (arg : ObjectId) (d : Nat) :
    (invoke (.ofDepth d) v receiver [arg]).Tacit m := by
  have hproper := h.proper.store.kinds v
  rw [hkind] at hproper
  let m₀ : Machine := m.tabled
  obtain ⟨a, hnew⟩ : ∃ a, newActivation v code.name code.home m = .done a m₀ := by
    cases code.home <;> exact ⟨_, rfl⟩
  have hlength : [param].length = [arg].length := rfl
  obtain ⟨i, s, hfurnished, hrun⟩ := runCode_enters (.ofDepth d) m₀ v hlength
    (accepts_params hproper hparams) (by simp)
  have henter := hrun code a m.runningName hparams
  rw [hbody] at henter
  have hsee : see (·.kind v) m = .done (.function code) m := by
    rw [← hkind]
    rfl
  have hread : Routine.read (·.runningName) m = .done m.runningName m := rfl
  refine .of_resumes (.bind hsee (moments_quiet _ m)) ?_
  refine .of_resumes (.bind hread (moments_quiet _ m)) ?_
  refine .of_resumes (.bind hnew (silent_newActivation v code.name code.home m)) ?_
  refine .of_resumes henter (.ensuring ?_ _)
  have hstore : m.store.Retains m.store.objects.size s :=
    (Store.Retains.newTable _ _ _).trans hfurnished.retains
  have hbacked : Backed m { m₀.push (a.pushScope (.free i)) with store := s } := ⟨hstore, rfl⟩
  exact runBody_tacit h.sound hbacked (List.cons_ne_nil _ _) d

theorem getName_tacit {name : String} (hname : m.lookup name = some c) (h : m.store.Gives v c)
    (d : Nat) : (getName (.ofDepth d) name).Tacit m := by
  have hlookup : Routine.read (·.lookup name) m = .done (some c) m := by
    rw [← hname]
    rfl
  have hfound : found name (some c) m = .done c m := rfl
  refine .of_resumes (.trans (.bind hlookup (moments_quiet _ m))
    (.bind hfound (moments_pure c m))) (.touch_reads (readCell_tacit h d none))

end Tacit

end Eval

namespace Machine

variable {m : Machine} {other o v : ObjectId} {p : ModuleParts} {name : String} {c : CellId}

/-- The members of an alias are read by the machine's own operator, since it has no operators of its
own and lies on the root. -/
theorem Reachable.transparent_alias (h : Reachable m)
    (halias : m.store.kind other = .moduleAlias o p) : m.store.Transparent other := by
  obtain ⟨i, f, hi, hf, hmethod, -⟩ := h.hooked.memberRead
  refine ⟨i, f, _, ?_, hf, hmethod⟩
  have hown : m.store.local? (.part other .operators) "." = none := by
    cases hlocal : m.store.local? (.part other .operators) "." with
    | none => rfl
    | some j =>
      have hbearer := (h.guarded.store.bindings _ _ (Store.Binds.of_local? hlocal)).bearer other rfl
      have hmodule := hbearer.2
      rw [Store.isModule, halias] at hmodule
      cases hmodule
  have hlevels := h.proper.store.levels_definition (o := other) (by rw [halias]; trivial)
  rw [Store.lookup_part _ _ (by simp), hlevels, List.findSome?_cons, hown,
    List.findSome?_singleton, hi]

/-- What an alias shows is read by adding things that no one knows. -/
theorem Reachable.getMember_alias (h : Reachable m) (hstack : m.stack ≠ [])
    (halias : m.store.kind other = .moduleAlias o p) (hshown : m.store.local? p.shown name = some c)
    (hgives : m.store.Gives v c) : ∃ n, ∀ d, n ≤ d → ∃ m',
      m.Retains m.store.objects.size m' ∧
      Eval.getMember (.ofDepth (d + 1)) other name m = .done v m' := by
  obtain ⟨a, ha⟩ : ∃ a, m.stack.head? = some a := ⟨_, List.head?_eq_some_head hstack⟩
  have hc : m.store.HasCell c := h.sound.store.hasCell_of_local? hshown
  obtain ⟨n, hn⟩ := Eval.readCell_follows (T := m.store.Retains m.store.objects.size)
    (fun _ h => h.cells)
    (fun c c' hc hview => by simpa [hview, Cell.Fits] using h.sound.store.cells c hc) hgives hc
  refine ⟨n, fun d hd => ?_⟩
  have hhas : m.store.HasObject other := Store.has_of_kind (by rw [halias]; simp)
  obtain ⟨b, m₁, this, hwithin, hstands, hget⟩ := h.getMember_holder ha hhas
    (h.transparent_alias halias) (.refl _) h.sound.store d name
  have hholder : m.store.holder? a.owner other name = some c :=
    Store.lookupIn_alias halias hshown a.owner
  rw [hholder] at hget
  refine ⟨m₁.leave, hwithin.leave (.refl _ _), hget.trans ?_⟩
  simp only [ensuring, ending, hn d hd m₁ (some this) hwithin.store]

/-- In every state that a run comes to, whatever a module exports under a name that is also
imported: the value is found both ways. Unless it is a method, calling it as a member of an alias of
the module has the same outcome as calling the imported name, up to the identities of what is made
by the call, as long as the call tells none of those. A method is called with the alias as its
receiver. -/
theorem module_uses_agree (h : Reachable m) (halias : m.store.kind other = .moduleAlias o p)
    (hshown : m.store.local? p.shown name = some c) (hname : m.lookup name = some c) :
    ∃ v n, m.store.Gives v c ∧ ∀ d, n ≤ d → ∀ args, (∀ x ∈ args, m.store.HasObject x) →
      ((∀ owner code, m.store.kind v ≠ .method owner code) →
        (Eval.callName (.ofDepth d) name args).Reticent m →
        (Eval.callName (.ofDepth d) name args m).Agrees m
          (Eval.callMember (.ofDepth d) other name args m)) ∧
      (((Inner.ofDepth d).invoke v (some other) args).Reticent m →
        ((Inner.ofDepth d).invoke v (some other) args m).Agrees m
          (Eval.callMember (.ofDepth d) other name args m)) := by
  have hstack : m.stack ≠ [] := by
    intro hnil
    rw [lookup, hnil] at hname
    cases hname
  have hother : m.store.HasObject other := Store.has_of_kind (by rw [halias]; simp)
  have hc : m.store.HasCell c := h.sound.store.hasCell_of_local? hshown
  have hmodule := (h.tidy.regular other (by simp [halias])).moduleAlias o p halias
  obtain ⟨b, hview, -⟩ := h.tidy.view_of_shown hmodule hshown
  obtain ⟨v, hgives⟩ := h.tidy.exists_gives h.sound.store.toWellformed (c := c)
    (by rw [hview]; trivial)
  have hv := hgives.has h.sound.store.toWellformed hc
  obtain ⟨n₁, hread⟩ := Eval.readCell_gives hgives
  obtain ⟨n₂, hmember⟩ := h.getMember_alias hstack halias hshown hgives
  refine ⟨v, max n₁ n₂ + 1, hgives, fun d hd args hargs => ?_⟩
  obtain ⟨d, rfl⟩ : ∃ d', d = d' + 1 := ⟨d - 1, by omega⟩
  obtain ⟨m', hretains, hget⟩ := hmember d (by omega)
  have hthrough : Eval.callMember (.ofDepth (d + 1)) other name args m =
      Eval.invoke (.ofDepth d) v (some other) args m' := by
    rw [Eval.callMember, bind_run_done hget]
    rfl
  -- A call on a machine that only has more agrees with the call itself.
  have hagrees (hquiet : (Eval.invoke (.ofDepth d) v (some other) args).Reticent m) :
      (Eval.invoke (.ofDepth d) v (some other) args m).Agrees m
        (Eval.invoke (.ofDepth d) v (some other) args m') := by
    obtain ⟨ρ, hspares, hshifted⟩ := hretains.shifted h.sound
    have hmirrors := Eval.invoke_mirrors ρ d v (some other) args
    rw [hspares.object hv, move_option fun o ho => hspares.object (by simp_all),
      move_list fun o ho => hspares.object (hargs o ho)] at hmirrors
    exact ⟨ρ, hspares, hmirrors.alike m m' hshifted fun p hp o ho =>
      hspares.object (hquiet p hp o ho)⟩
  rw [← hthrough] at hagrees
  refine ⟨fun hmethod hquiet => ?_, hagrees⟩
  have hgetName := Eval.getName_of_read hname (hread (d + 1) (by omega) none)
  have hsame := Eval.invoke_receiver hmethod (.ofDepth d) (some other) none args
  have hdirect : Eval.callName (.ofDepth (d + 1)) name args m =
      Eval.invoke (.ofDepth d) v (some other) args m := by
    rw [Eval.callName, bind_run_done hgetName, hsame.run]
    rfl
  rw [hdirect]
  refine hagrees fun x hx => hquiet x ?_
  rw [hsame.moments] at hx
  rw [Eval.callName, moments_bind_done hgetName]
  exact List.mem_append.mpr (Or.inr hx)

section Witness

def usingSource : Source :=
  .ofText "module m \x7b function f(x) \x7b \x7d\nexport f \x7d\nimport m as al\nimport m"

instance Body.decideEmpty {body : Body} : Decidable (body = .block []) :=
  match body with
  | .block [] => .isTrue rfl
  | .block (_ :: _) | .primitive _ => .isFalse (by simp)

set_option synthInstance.maxSize 512 in
/-- The function is exported and imported, and has one parameter. -/
theorem using_run : ∃ m, (Eval.runSource (.ofDepth 24) usingSource initial).machine? = some m ∧
    ∃ al, m.lookup "al" = some al ∧ ∃ other, m.store.cell al = .const other ∧
    ∃ o p, m.store.kind other = .moduleAlias o p ∧ ∃ c, m.lookup "f" = some c ∧
    m.store.local? p.shown "f" = some c ∧ ∃ x, m.store.cell c = .view x ∧
    ∃ f, m.store.cell x = .const f ∧ ∃ code, m.store.kind f = .function code ∧
      (∃ param, code.params = .fixed [param]) ∧ code.body = .block [] := by decide +kernel

/-- The function is found both ways, and the calls agree. -/
theorem module_uses_agree_using : ∃ m other o p c n, Reachable m ∧
    m.store.kind other = .moduleAlias o p ∧ m.store.local? p.shown "f" = some c ∧
    m.lookup "f" = some c ∧ ∀ d, n ≤ d →
      (Eval.callName (.ofDepth d) "f" [other] m).Agrees m
        (Eval.callMember (.ofDepth d) other "f" [other] m) := by
  obtain ⟨m, hend, -, -, other, -, o, p, halias, c, hname, hshown, x, hx, f, hf, code, hkind,
    ⟨param, hparams⟩, hbody⟩ := using_run
  have hreachable : Reachable m := .between (.next .start 24 usingSource hend)
  have hother : m.store.HasObject other := Store.has_of_kind (by rw [halias]; simp)
  obtain ⟨v, n, hgives, hcalls⟩ := module_uses_agree hreachable halias hshown hname
  obtain rfl : v = f := hgives.unique (.view hx (.const hf))
  obtain ⟨n', hread⟩ := Eval.readCell_gives hgives
  refine ⟨m, other, o, p, c, max n n' + 1, hreachable, halias, hshown, hname, fun d hd => ?_⟩
  obtain ⟨d, rfl⟩ : ∃ d', d = d' + 1 := ⟨d - 1, by omega⟩
  have hget := Eval.getName_of_read hname (hread (d + 1) (by omega) none)
  have htacit : (Eval.callName (.ofDepth (d + 1)) "f" [other]).Tacit m :=
    .bind_done hget (Eval.getName_tacit hname hgives (d + 1))
      (Eval.invoke_tacit hreachable.poised hkind hparams hbody none other d)
  exact (hcalls (d + 1) (by omega) [other] (by simpa using hother)).1 (by simp [hkind])
    htacit.reticent

def methodSource : Source :=
  .ofText "module m \x7b val f = nothing.isa\nexport f \x7d\nimport m as al\nimport m"

def truth? (r : Outcome ObjectId) : Option Bool :=
  match r with
  | .done v m => m.store.asBoolean v
  | _ => none

theorem truth?_agrees {r r' : Outcome ObjectId} (h : r.Agrees m r') : truth? r' = truth? r := by
  obtain ⟨ρ, -, hr⟩ := h
  cases hr with
  | done a hm => exact hm.store.asBoolean a
  | failed => rfl
  | exhausted => rfl

set_option synthInstance.maxSize 512 in
/-- What the method says both ways to the class `Nothing`. -/
theorem method_run : ∃ m, (Eval.runSource (.ofDepth 24) methodSource initial).machine? = some m ∧
    ∃ al, m.lookup "al" = some al ∧ ∃ other, m.store.cell al = .const other ∧
    ∃ o p, m.store.kind other = .moduleAlias o p ∧ ∃ c, m.lookup "f" = some c ∧
    m.store.local? p.shown "f" = some c ∧ ∃ n, m.lookup "Nothing" = some n ∧
    ∃ arg, m.store.cell n = .const arg ∧ m.store.HasObject arg ∧
      truth? (Eval.callName (.ofDepth 24) "f" [arg] m) = some true ∧
      truth? (Eval.callMember (.ofDepth 24) other "f" [arg] m) = some false := by decide +kernel

/-- A method is another matter: that of `nothing` answers for `nothing` when its name is called, and
for the alias when it is called as a member. -/
theorem method_uses_differ : ∃ m other o p c arg, Reachable m ∧
    m.store.kind other = .moduleAlias o p ∧ m.store.local? p.shown "f" = some c ∧
    m.lookup "f" = some c ∧ m.store.HasObject arg ∧
    truth? (Eval.callName (.ofDepth 24) "f" [arg] m) = some true ∧
    truth? (Eval.callMember (.ofDepth 24) other "f" [arg] m) = some false ∧
    ¬ (Eval.callName (.ofDepth 24) "f" [arg] m).Agrees m
      (Eval.callMember (.ofDepth 24) other "f" [arg] m) := by
  obtain ⟨m, hend, -, -, other, -, o, p, halias, c, hname, hshown, -, -, arg, -, harg, hdirect,
    hmember⟩ := method_run
  refine ⟨m, other, o, p, c, arg, .between (.next .start 24 methodSource hend), halias, hshown,
    hname, harg, hdirect, hmember, fun hagrees => ?_⟩
  have hsame := truth?_agrees hagrees
  rw [hdirect, hmember] at hsame
  cases hsame

end Witness

end Machine

end ObjectLang
