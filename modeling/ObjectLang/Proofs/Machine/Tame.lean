import ObjectLang.Proofs.Machine.Tended

/-!
Tame routines: tended on every machine, whichever tables are open.
A grant says what has to be among the open tables, such as the innermost scope for code that
declares names in it. The table of modules is never granted: it takes the names of modules only.
Everything that calls into other code is tame without any grant.
-/
namespace ObjectLang

open Machine

/-- What a routine is granted about the open tables. It outlasts every confined routine. -/
structure Grant where
  gives : (TableId → Prop) → Machine → Prop
  lasts : ∀ {T T' : TableId → Prop} {m m' : Machine}, m.KeepsTo T' m' → gives T m → gives T m'

namespace Grant

def none : Grant := ⟨fun _ _ => True, fun _ => id⟩

def table (t : TableId) : Grant :=
  ⟨fun T m => T t ∧ t ≠ m.modules, fun hstep h => ⟨h.1, hstep.modules ▸ h.2⟩⟩

def parts (o : ObjectId) : Grant :=
  ⟨fun T m => ∀ p, T (.part o p) ∧ .part o p ≠ m.modules,
    fun hstep h p => ⟨(h p).1, hstep.modules ▸ (h p).2⟩⟩

def head : Grant :=
  ⟨fun T m => m.HeadIn fun t => T t ∧ t ≠ m.modules, fun hstep h => by
    rw [hstep.modules]
    exact hstep.headIn h⟩

def Opens (g : Grant) (t : TableId) : Prop :=
  ∀ (T : TableId → Prop) (m : Machine), g.gives T m → T t ∧ t ≠ m.modules

theorem opens_table (t : TableId) : (table t).Opens t := fun _ _ => id

theorem opens_part (o : ObjectId) (p : Part) : (parts o).Opens (.part o p) := fun _ _ h => h p

end Grant

namespace Routine

structure Tame {α : Type} (g : Grant) (x : Routine α) : Prop where
  tended : ∀ (T : TableId → Prop) (m : Machine), m.Admits T → g.gives T m → x.Tended True T m

namespace Tame

variable {α β : Type} {g : Grant} {x : Routine α} {f : α → Routine β} {t : TableId} {c : Cell}

theorem pure (a : α) : (Pure.pure a : Routine α).Tame g := ⟨fun _ _ hm _ => .pure hm.tidy a⟩

theorem fail (fault : Fault) : (Routine.fail fault : Routine α).Tame g := ⟨fun _ _ hm _ =>
  .fail hm.tidy fault⟩

theorem failWith (e : Error) : (Routine.failWith e : Routine α).Tame g := ⟨fun _ _ hm _ =>
  .failWith hm.tidy e⟩

theorem outOfFuel : (Routine.outOfFuel : Routine α).Tame g := ⟨fun _ _ _ _ => .outOfFuel⟩

theorem read (h : Machine → α) : (Routine.read h).Tame g := ⟨fun _ _ hm _ => .read hm.tidy h⟩

theorem see (h : Store → α) : (Routine.see h).Tame g := ⟨fun _ _ hm _ => .see hm.tidy h⟩

theorem peek (i : Nat) : (Routine.peek i).Tame g := ⟨fun _ _ hm _ => .peek hm.tidy i⟩

theorem note (e : Event) : (Routine.note e).Tame g := ⟨fun _ _ hm _ => .note hm.tidy e⟩

theorem writeLine (text : String) : (Routine.writeLine text).Tame g := ⟨fun _ _ hm _ =>
  .writeLine hm.tidy text⟩

theorem touch {d : Deed} (hd : d.Plain ∧ d.Mute) : (Routine.touch d).Tame g :=
  ⟨fun _ _ hm _ => .touch hm.tidy hd.1 fun _ => hd.2⟩

theorem assign (c : CellId) (v : ObjectId) : (change (·.assign c v)).Tame g := ⟨fun _ _ hm _ =>
  .assign hm.tidy c v⟩

theorem alike {h : Store → Store} (hh : ∀ s : Store, s.Alike (h s)) : (change h).Tame g :=
  ⟨fun _ m hm _ => .alike hm.tidy (hh m.store)⟩

theorem bind (hx : x.Tame g) (hf : ∀ a, (f a).Tame g) : (x >>= f).Tame g := by
  refine ⟨fun T m hm hg => ?_⟩
  refine .bind hm.holds (hx.tended T m hm hg) fun a m₁ _ hstep => ?_
  exact (hf a).tended T m₁ (hstep.admits hm) (g.lasts hstep hg)

theorem bind_pure {a : α} (hf : (f a).Tame g) : ((Pure.pure a : Routine α) >>= f).Tame g :=
  ⟨fun T m hm hg => .of_resumes hm.tidy (.bind rfl (moments_pure a m)) (hf.tended T m hm hg)⟩

theorem bind_fail (fault : Fault) : ((Routine.fail fault : Routine α) >>= f).Tame g :=
  ⟨fun _ _ hm _ => .bind_fail hm.tidy fault⟩

theorem map (h : α → β) (hx : x.Tame g) : (h <$> x).Tame g := hx.bind fun a => .pure (h a)

theorem assoc {γ : Type} {h : β → Routine γ} (hx : (x >>= fun a => f a >>= h).Tame g) :
    ((x >>= f) >>= h).Tame g := ⟨fun T m hm hg =>
  .of_resumes hm.tidy (.assoc x f h m) (hx.tended T m hm hg)⟩

theorem attempt (hx : x.Tame g) : (Routine.attempt x).Tame g := ⟨fun T m hm hg =>
  .attempt (hx.tended T m hm hg)⟩

theorem onError (hx : x.Tame g) {deed : Error → Deed} {h : Error → Error}
    (hdeed : ∀ e, (deed e).Plain ∧ (deed e).Mute) : (x.onError deed h).Tame g := ⟨fun T m hm hg =>
  .onError (hx.tended T m hm hg) (fun e => (hdeed e).1) fun _ e => (hdeed e).2⟩

theorem doing (hx : x.Tame g) (t : Task) : (x.doing t).Tame g := ⟨fun T m hm hg =>
  (hx.tended T m hm hg).doing t⟩

/-- The rest is granted the new table. -/
theorem bind_newTable {f : TableId → Routine β} (hf : ∀ t, (f t).Tame (.table t)) :
    (Routine.newTable >>= f).Tame g := ⟨fun _ _ hm _ =>
  .bind_newTable hm fun t m₁ hm₁ hne => (hf t).tended _ m₁ hm₁ ⟨Or.inl rfl, hne⟩⟩

/-- The rest is granted the tables of the new object. -/
theorem bind_newObject {base : Option ObjectId} {kind : Kind}
    (hkind : ∀ s : Store, s.Regular kind) {f : ObjectId → Routine β}
    (hf : ∀ o, (f o).Tame (.parts o)) :
    (Routine.newObject base kind >>= f).Tame g := ⟨fun _ _ hm _ =>
  .bind_newObject hm (hkind _) fun o m₁ hm₁ hne =>
    (hf o).tended _ m₁ hm₁ fun p => ⟨Or.inl ⟨p, rfl⟩, hne p⟩⟩

theorem bind_capture (a : Activation) {f : Activation → Routine β}
    (hf : ∀ copy, (f copy).Tame .none) :
    (Routine.touch (.captures a) >>= fun _ => make (·.captureActivation a) >>= f).Tame g :=
  ⟨fun T _ hm _ => .bind_capture hm a fun copy m₁ hm₁ => (hf copy).tended T m₁ hm₁ trivial⟩

/-- A new cell is bound to a name right away. -/
theorem newCell_define (hview : ∀ x, c ≠ .view x) (ht : g.Opens t) (name : String) :
    (Routine.newCell c >>= fun i => Routine.define t name i).Tame g :=
  ⟨fun T m hm hg => .bind_newCell_define hm hview ((ht T m hg).imp_right fun hne _ => hne) name⟩

theorem defineConst (ht : g.Opens t) (name : String) (v : ObjectId) :
    (Routine.defineConst t name v).Tame g :=
  newCell_define (by simp) ht name

/-- A new cell is declared in the innermost scope right away. -/
theorem newCell_declare (hview : ∀ x, c ≠ .view x) (name : String) :
    (Routine.newCell c >>= fun i => Routine.declare name i).Tame .head := by
  refine ⟨fun T m hm hhead => ?_⟩
  refine .bind_newCell hm.tidy (fun x hx => absurd hx (hview x)) fun i m₁ hstep hhas _ hfree => ?_
  exact .declare (hstep.admits hm) (Grant.head.lasts hstep hhead) hhas fun _ _ => hfree

/-- The rest is granted the innermost scope of the new activation. -/
theorem bind_newActivation {owner : ObjectId} {name : String} {home : Option TableId}
    {f : Activation → Routine β}
    (hf : ∀ a t rest, a.scopes = t :: rest → (f a).Tame (.table t)) :
    (Routine.newActivation owner name home >>= f).Tame g := by
  refine assoc (bind_newTable fun t => assoc ((read _).bind fun builtins => ?_))
  cases home with
  | none => exact bind_pure (hf _ t [builtins] rfl)
  | some home => exact bind_pure (hf _ t [home, builtins] rfl)

theorem withActivation {a : Activation} (hx : x.Tame .none) :
    (Routine.withActivation a x).Tame g := ⟨fun T _ hm _ =>
  .withActivation (hx.tended T _ (hm.push a) trivial)⟩

/-- A scope that names may be bound in is the innermost one for the routine that runs in it. -/
theorem withScope (ht : g.Opens t) (hx : x.Tame .head) :
    (Routine.withScope t x).Tame g := by
  refine ⟨fun T m hm hg => ?_⟩
  refine .withScope hm.tidy fun a rest _ => hx.tended T _ ⟨hm.tidy, hm.tables, hm.registry⟩ ?_
  rintro b ⟨⟩ t' ⟨⟩
  exact ht T m hg

end Tame

end Routine

end ObjectLang
