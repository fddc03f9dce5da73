import ObjectLang.Proofs.Machine.Civil
import ObjectLang.Proofs.Machine.Local
import ObjectLang.Proofs.Machine.Mirrors
import ObjectLang.Proofs.Machine.Tended

/-!
Disciplines that routines keep to, and the evaluator under all of them at once.
A discipline has one clause for each way in which the evaluator puts routines together. What a
routine may rely on is its ground, such as the table that was opened for it. Where a discipline asks
for proper programs, the clauses say what of them they need. A discipline may compare a routine with
the same one on moved identities; one that speaks of a single routine passes the second over. From
the clauses alone it follows that every step of the evaluator keeps to the discipline, and so it
does to every depth.
-/
namespace ObjectLang

open Machine Routine

attribute [local instance] Routine.lawful

instance : Movable Number := ⟨fun _ n => n⟩

def Shift.rest : Shift := ⟨⟨1, 0⟩, ⟨0, 0⟩, ⟨0, 0⟩, Nat.one_pos⟩

theorem Shift.move_rest (o : ObjectId) : move rest o = o := by
  obtain ⟨i⟩ := o
  exact congrArg ObjectId.mk (ite_self i)

/-- Neither a capture, an assignment by another route, the beginning of an export nor the end of a
statement. -/
structure Deed.Modest (d : Deed) : Prop where
  plain : d.Plain
  mute : d.Mute
  stays : ∀ s e, d ≠ .leaves s e

structure Discipline where
  /-- What a routine may rely on. -/
  Ground : Type
  /-- How the identities differ that the second routine is given. -/
  ρ : Shift
  Keeps : {α : Type} → [Movable α] → Ground → Routine α → Routine α → Prop
  /-- The table of modules, where programs have to be proper. -/
  registry : Option TableId
  /-- A table to bind names in. -/
  table : Ground → TableId → Ground
  /-- An object to bind names in. -/
  parts : Ground → ObjectId → Ground
  /-- The innermost scope to bind names in. -/
  head : Ground → Ground
  /-- In an activation of its own. -/
  called : Ground → Ground
  /-- The activation that called may be looked at. -/
  Sees : Ground → Prop
  sees_called (g : Ground) : Sees (called g)
  sees_head {g : Ground} : Sees g → Sees (head g)
  outOfFuel {α : Type} [Movable α] {g : Ground} :
    Keeps g (Routine.outOfFuel : Routine α) Routine.outOfFuel
  pure {α : Type} [Movable α] {g : Ground} {a a' : α} :
    a' = move ρ a → Keeps g (Pure.pure a : Routine α) (Pure.pure a')
  bind {α β : Type} [Movable α] [Movable β] {g : Ground} {x x' : Routine α}
    {f f' : α → Routine β} : Keeps g x x' → (∀ a, Keeps g (f a) (f' (move ρ a))) →
      Keeps g (x >>= f) (x' >>= f')
  bind_fail {α β : Type} [Movable β] {g : Ground} {fault : Fault} {f f' : α → Routine β} :
    (∀ _ ∈ registry, fault.Proper) →
      Keeps g ((Routine.fail fault : Routine α) >>= f) (Routine.fail fault >>= f')
  bind_see {α β : Type} [Movable α] [Movable β] {g : Ground} {h h' : Store → α}
    {f f' : α → Routine β} : (∀ s s', s.Shifted ρ s' → h' s' = move ρ (h s)) →
    (∀ s, Keeps g (f (h s)) (f' (move ρ (h s)))) →
      Keeps g (Routine.see h >>= f) (Routine.see h' >>= f')
  bind_kind {β : Type} [Movable β] {g : Ground} (o : ObjectId) {f f' : Kind → Routine β} :
    (∀ kind, (∀ R ∈ registry, kind.Proper R) → Keeps g (f kind) (f' (move ρ kind))) →
      Keeps g (Routine.see (·.kind o) >>= f) (Routine.see (·.kind (move ρ o)) >>= f')
  /-- Of the stack no more can be read than its top. -/
  read {α : Type} [Movable α] {g : Ground} {h h' : Machine → α} : (∀ (m : Machine) below earlier,
    1 ≤ m.stack.length → h (m.onto below earlier) = h m) →
    (∀ m m', m.Shifted ρ m' → h' m' = move ρ (h m)) → Keeps g (Routine.read h) (Routine.read h')
  bind_peek {β : Type} [Movable β] {g : Ground} {f f' : Activation → Routine β} {i : Nat} :
    (0 < i → Sees g ∧ i = 1) →
    (∀ a, (∀ R ∈ registry, a.Proper R) → Keeps g (f a) (f' (move ρ a))) →
      Keeps g (Routine.peek i >>= f) (Routine.peek i >>= f')
  touch {g : Ground} {d d' : Deed} : d.Modest → Keeps g (Routine.touch d) (Routine.touch d')
  /-- An identity that is told is not moved. -/
  bind_identifies {β : Type} [Movable β] {g : Ground} {o o' : ObjectId} {y y' : Routine β} :
    (move ρ o = o → Keeps g y y') → Keeps g (Routine.touch (.identifies o) >>= fun _ => y)
      (Routine.touch (.identifies o') >>= fun _ => y')
  assign {g : Ground} (c : CellId) (v : ObjectId) :
    Keeps g (change (·.assign c v)) (change (·.assign (move ρ c) (move ρ v)))
  alike {g : Ground} {h h' : Store → Store} : (∀ s : Store, s.Alike (h s)) →
    (∀ s s', s.Shifted ρ s' → (h s).Shifted ρ (h' s')) → Keeps g (change h) (change h')
  note {g : Ground} (e e' : Event) : Keeps g (Routine.note e) (Routine.note e')
  writeLine {g : Ground} (text : String) : Keeps g (Routine.writeLine text) (Routine.writeLine text)
  /-- An error that was caught may be raised again, and one that has left a statement is. -/
  bind_attempt {α β : Type} [Movable α] [Movable β] {g : Ground} {x x' : Routine α}
    {f f' : Except Error α → Routine β} : Keeps g x x' →
    (∀ r, (∀ e, r = .error e → Keeps g (failWith e : Routine β) (failWith e)) →
      Keeps g (f r) (f' (move ρ r))) →
    (∀ e : Error, e.isFatal = true → f (.error e) = failWith e) →
      Keeps g (x.attempt >>= f) (x'.attempt >>= f')
  leaving {α : Type} [Movable α] {g : Ground} {x x' : Routine α} (s : Statement) : Keeps g x x' →
    Keeps g (x.onError (.leaves s) (·.leaving s.text)) (x'.onError (.leaves s) (·.leaving s.text))
  doing {α : Type} [Movable α] {g : Ground} {x x' : Routine α} (t : Task) :
    Keeps g x x' → Keeps g (x.doing t) (x'.doing t)
  bind_newTable {β : Type} [Movable β] {g : Ground} {f f' : TableId → Routine β} :
    (∀ t, Keeps (table g t) (f t) (f' (move ρ t))) → Keeps g (newTable >>= f) (newTable >>= f')
  bind_newObject {β : Type} [Movable β] {g : Ground} {base : Option ObjectId} {kind : Kind}
    {f f' : ObjectId → Routine β} : (∀ s : Store, s.Regular kind) →
    (∀ R ∈ registry, kind.Proper R) → ¬ kind.Definition →
    (∀ o, Keeps (parts g o) (f o) (f' (move ρ o))) →
      Keeps g (newObject base kind >>= f) (newObject (move ρ base) (move ρ kind) >>= f')
  bind_rooted {β : Type} [Movable β] {g : Ground} {kind : Kind} {type : Roots → ObjectId}
    {f f' : ObjectId → Routine β} : (∀ r, type (move ρ r) = move ρ (type r)) →
    (∀ s : Store, s.Regular kind) → (∀ R ∈ registry, kind.Proper R) →
    (∀ o, Keeps (parts g o) (f o) (f' (move ρ o))) →
      Keeps g (Eval.makeRooted kind type >>= f) (Eval.makeRooted (move ρ kind) type >>= f')
  /-- A new cell is bound to a name right away. -/
  define {g : Ground} {t : TableId} {name : String} (v : ObjectId) :
    (∀ _ ∈ registry, NameRule.symbol.accepts name = true) →
      Keeps (table g t) (defineConst t name v) (defineConst (move ρ t) name (move ρ v))
  definePart {g : Ground} {o : ObjectId} {p : Part} {name : String} {c : Cell} :
    (∀ x, c ≠ .view x) → (∀ _ ∈ registry, p.rule.accepts name = true) →
      Keeps (parts g o) (newCell c >>= Routine.define (.part o p) name)
        (newCell (move ρ c) >>= Routine.define (.part (move ρ o) p) name)
  defineField {g : Ground} {o : ObjectId} {name : String} {c : Cell} : (∀ x, c ≠ .view x) →
    (∀ _ ∈ registry, NameRule.symbol.accepts name = true) → Keeps (parts g o)
      (newCell c >>= fun i =>
        Routine.touch (.fills o name i) >>= fun _ => Routine.define (.part o .fields) name i)
      (newCell (move ρ c) >>= fun i => Routine.touch (.fills (move ρ o) name i) >>= fun _ =>
        Routine.define (.part (move ρ o) .fields) name i)
  declare {g : Ground} {name : String} {c : Cell} : (∀ x, c ≠ .view x) →
    (∀ _ ∈ registry, NameRule.symbol.accepts name = true) →
      Keeps (head g) (newCell c >>= Routine.declare name)
      (newCell (move ρ c) >>= Routine.declare name)
  bind_newActivation {β : Type} [Movable β] {g : Ground} {owner : ObjectId} {name : String}
    {home : Option TableId} {f f' : Activation → Routine β} :
    (∀ R ∈ registry, ∀ t, home = some t → t.Plain R) →
    (∀ a t rest, (∀ R ∈ registry, a.Proper R) → a.scopes = t :: rest →
      Keeps (table g t) (f a) (f' (move ρ a))) →
      Keeps g (newActivation owner name home >>= f)
        (newActivation (move ρ owner) name (move ρ home) >>= f')
  bind_capture {β : Type} [Movable β] {g : Ground} {a : Activation}
    {f f' : Activation → Routine β} : (∀ R ∈ registry, a.Proper R) →
    (∀ g copy, (∀ R ∈ registry, copy.Proper R) → Keeps g (f copy) (f' (move ρ copy))) →
      Keeps g (Routine.touch (.captures a) >>= fun _ => make (·.captureActivation a) >>= f)
        (Routine.touch (.captures (move ρ a)) >>= fun _ =>
          make (·.captureActivation (move ρ a)) >>= f')
  withActivation {α : Type} [Movable α] {g : Ground} {a : Activation} {x x' : Routine α} :
    (∀ R ∈ registry, a.Proper R) → Keeps (called g) x x' →
      Keeps g (Routine.withActivation a x) (Routine.withActivation (move ρ a) x')
  withScope {α : Type} [Movable α] {g : Ground} {t : TableId} {x x' : Routine α} :
    Keeps (head g) x x' →
      Keeps (table g t) (Routine.withScope t x) (Routine.withScope (move ρ t) x')

variable {code : Code} {fault : Fault} {b : Blueprint} {params : List String} {body : Block}
  {members : List Member} {p : Primitive}

section Regular

variable (s : Store)

theorem Store.regular_method (owner : ObjectId) (code : Code) : s.Regular (.method owner code) :=
  ⟨by simp, by simp, by simp, by simp⟩

theorem Store.regular_function (h : ¬ code.SeesCaller) :
    s.Regular (.function code) := ⟨by simp, by rintro _ ⟨⟩; exact h, by simp, by simp⟩

theorem Store.regular_closure (captured : Activation) (h : ¬ code.SeesCaller) :
    s.Regular (.closure code captured) := ⟨by simp, by simp, by rintro _ _ ⟨⟩; exact h, by simp⟩

end Regular

section Proper

variable {R home : TableId} {op : Arith}

theorem Code.proper_block (hhome : home.Plain R) (name : String)
    (hparams : Mention.Each Mention.Proper (Mention.symbols params))
    (hbody : Mention.Each Mention.Proper (Statement.mentionsAll body)) :
    (Code.block name params body (some home)).Proper R where
  params := by
    rintro _ ⟨⟩
    exact hparams
  body := hbody
  home := by
    rintro _ ⟨⟩
    exact hhome

/-- A primitive that takes no arguments and raises no fault on purpose. -/
theorem Code.proper_primitive (name : String) (hp : ∀ f, p ≠ .raise f) :
    (Code.primitive name [] p).Proper R where
  params := by
    rintro _ ⟨⟩
    exact Mention.each_nil
  body := hp
  home := nofun

namespace Eval

/-- What holds of all elements of a list and of one more holds of the longer list. -/
theorem forall_mem_concat {α : Type} {P : α → Prop} {xs : List α} {x : α} (h : ∀ y ∈ xs, P y)
    (hx : P x) : ∀ y ∈ xs ++ [x], P y := by
  intro y hy
  rcases List.mem_append.mp hy with hy | hy
  · exact h y hy
  · exact List.mem_singleton.mp hy ▸ hx

/-- A member that mentions only what is proper leaves the blueprint proper. -/
theorem addMember_proper (hhome : home.Plain R) (hb : b.Proper R) {x : Member}
    (hx : Mention.Each Mention.Proper x.mentions) : (addMember home b x).Proper R := by
  have hcode : ∀ (name : String) (a : Accessor), Mention.Each Mention.Proper a.mentions →
      (accessorCode home name a).Proper R := by
    rintro name ⟨params, body⟩ ha
    obtain ⟨hparams, hbody⟩ := Mention.each_append.mp ha
    exact Code.proper_block hhome name hparams hbody
  cases x with
  | val name value =>
    obtain ⟨hname, hvalue⟩ := Mention.each_cons.mp hx
    have hnew : FieldPlan.Proper ⟨name, some value⟩ := ⟨hname, hvalue⟩
    exact { hb with vals := forall_mem_concat hb.vals hnew }
  | var name value =>
    obtain ⟨hname, hvalue⟩ := Mention.each_cons.mp hx
    have hnew : FieldPlan.Proper ⟨name, value⟩ := ⟨hname, hvalue⟩
    exact { hb with vars := forall_mem_concat hb.vars hnew }
  | method name params body =>
    obtain ⟨hname, hrest⟩ := Mention.each_cons.mp hx
    obtain ⟨hparams, hbody⟩ := Mention.each_append.mp hrest
    have hnew := Code.proper_block hhome name hparams hbody
    exact { hb with methods := forall_mem_concat hb.methods ⟨hnew, hname⟩ }
  | operator symbol params body =>
    obtain ⟨hname, hrest⟩ := Mention.each_cons.mp hx
    obtain ⟨hparams, hbody⟩ := Mention.each_append.mp hrest
    have hnew := Code.proper_block hhome symbol hparams hbody
    exact { hb with operators := forall_mem_concat hb.operators ⟨hnew, hname⟩ }
  | property name getter setter =>
    obtain ⟨hname, hrest⟩ := Mention.each_cons.mp hx
    obtain ⟨hpaired, hrest⟩ := Mention.each_cons.mp hrest
    obtain ⟨hgetter, hsetter⟩ := Mention.each_append.mp hrest
    refine { hb with properties := forall_mem_concat hb.properties ⟨hname, ?_, ?_⟩ }
    · intro c hc
      obtain ⟨a, rfl, rfl⟩ := Option.map_eq_some_iff.mp hc
      exact hcode name a hgetter
    · intro c hc
      obtain ⟨a, rfl, rfl⟩ := Option.map_eq_some_iff.mp hc
      obtain ⟨g, rfl⟩ := Option.isSome_iff_exists.mp (hpaired rfl)
      exact ⟨hcode name a hsetter, nofun⟩

theorem declaredBlueprint_proper (hhome : home.Plain R) (name : String) (base : ObjectId)
    (hmembers : Mention.Each Mention.Proper (Member.mentionsAll members)) :
    (declaredBlueprint home name base members).Proper R := by
  have hfold : ∀ (b : Blueprint), b.Proper R → (members.foldl (addMember home) b).Proper R := by
    induction members with
    | nil => exact fun b hb => hb
    | cons x rest ih =>
      intro b hb
      obtain ⟨hx, hrest⟩ := Mention.each_append.mp hmembers
      exact ih hrest _ (addMember_proper hhome hb hx)
  have hempty :
      ({ Blueprint.empty name (some base) with home := some home } : Blueprint).Proper R := by
    refine ⟨?_, ?_, ?_, ?_, ?_, ?_⟩
    · simp [Blueprint.empty]
    · simp [Blueprint.empty]
    · simp [Blueprint.empty]
    · simp [Blueprint.empty]
    · simp [Blueprint.empty]
    · rintro _ ⟨⟩
      exact hhome
  exact hfold _ hempty

end Eval

end Proper

section Moves

namespace Eval

variable (ρ : Shift)

theorem record_move (a : Activation) (key text : String) :
    (move ρ a).record key text = move ρ (a.record key text) := by
  unfold Activation.record
  split <;> split
  · rfl
  · contradiction
  · contradiction
  · rfl

theorem addMember_move (home : TableId) (b : Blueprint) (member : Member) :
    addMember (move ρ home) (move ρ b) member = move ρ (addMember home b member) := by
  cases member with
  | val name value => rfl
  | var name value => rfl
  | method name params body =>
    have hmethods := move_append ρ b.methods [methodCode home name params body]
    exact congrArg (fun methods => ({ move ρ b with methods := methods } : Blueprint)) hmethods.symm
  | operator symbol params body =>
    have hoperators := move_append ρ b.operators [methodCode home symbol params body]
    exact congrArg (fun operators => ({ move ρ b with operators := operators } : Blueprint))
      hoperators.symm
  | property name getter setter =>
    have haccessor (a : Option Accessor) : a.map (accessorCode (move ρ home) name) =
        move ρ (a.map (accessorCode home name)) := by
      rcases a with _ | ⟨params, body⟩ <;> rfl
    simp only [addMember, haccessor]
    have hproperties := move_append ρ b.properties [⟨name, getter.map (accessorCode home name),
      setter.map (accessorCode home name)⟩]
    exact congrArg (fun properties => ({ move ρ b with properties := properties } : Blueprint))
      hproperties.symm

theorem declaredBlueprint_move (home : TableId) (name : String) (base : ObjectId)
    (members : List Member) : declaredBlueprint (move ρ home) name (move ρ base) members =
      move ρ (declaredBlueprint home name base members) := by
  have hfold (b : Blueprint) : members.foldl (addMember (move ρ home)) (move ρ b) =
      move ρ (members.foldl (addMember home) b) := by
    induction members generalizing b with
    | nil => rfl
    | cons member rest ih => rw [List.foldl_cons, addMember_move, ih, List.foldl_cons]
  exact hfold { Blueprint.empty name (some base) with home := some home }

end Eval

end Moves

namespace Discipline

variable {D : Discipline} {k : Inner} {α β : Type} [Movable α] [Movable β] {g : D.Ground}
  {kind : Kind} {cell : ObjectId → Cell} {name : String}

def Takes (D : Discipline) (x : Mention) : Prop := ∀ _ ∈ D.registry, x.Proper

theorem each_proper {xs : List Mention} (h : Mention.Each D.Takes xs) {R : TableId}
    (hR : R ∈ D.registry) : Mention.Each Mention.Proper xs := fun x hx => h x hx R hR

abbrev Same (D : Discipline) (g : D.Ground) (x : Routine α) : Prop := D.Keeps g x x

abbrev Along (D : Discipline) (g : D.Ground) (f : α → Routine β) (a : α) : Prop :=
  D.Keeps g (f a) (f (move D.ρ a))

abbrev Along₂ {γ : Type} [Movable γ] (D : Discipline) (g : D.Ground) (f : α → β → Routine γ) (a : α)
    (b : β) : Prop := D.Keeps g (f a b) (f (move D.ρ a) (move D.ρ b))

abbrev Along₃ {γ δ : Type} [Movable γ] [Movable δ] (D : Discipline) (g : D.Ground)
    (f : α → β → γ → Routine δ) (a : α) (b : β) (c : γ) : Prop :=
  D.Keeps g (f a b c) (f (move D.ρ a) (move D.ρ b) (move D.ρ c))

/-- What an instance may hold. -/
structure Content (D : Discipline) (kind : Kind) : Prop where
  regular : ∀ s : Store, s.Regular kind
  proper : ∀ R ∈ D.registry, kind.Proper R
  value : ¬ kind.Definition

/-- The work that is handed on keeps to the discipline; a block declares names in the innermost
scope. -/
structure Binds (D : Discipline) (k : Inner) : Prop where
  depth : ∃ d, k = .ofDepth d
  calls : ∀ g f receiver args, D.Along₃ g k.invoke f receiver args
  reads : ∀ g c receiver, D.Along₂ g k.read c receiver
  evaluates : ∀ g e, Mention.Each D.Takes e.mentions → D.Same g (k.evaluate e)
  executes : ∀ g b, Mention.Each D.Takes (Statement.mentionsAll b) → D.Same (D.head g) (k.execute b)

section Routines

theorem raise (h : ∀ _ ∈ D.registry, fault.Proper) :
    D.Keeps g (Routine.fail fault : Routine α) (Routine.fail fault) :=
  bind_pure (Routine.fail fault : Routine α) ▸ D.bind_fail h

theorem fail (h : fault.Proper) : D.Keeps g (Routine.fail fault : Routine α) (Routine.fail fault) :=
  raise fun _ _ => h

theorem see {h h' : Store → α} (hs : ∀ s s', s.Shifted D.ρ s' → h' s' = move D.ρ (h s)) :
    D.Keeps g (Routine.see h) (Routine.see h') :=
  bind_pure (Routine.see h) ▸ bind_pure (Routine.see h') ▸ D.bind_see hs fun _ => D.pure rfl

theorem map {h h' : α → β} {x x' : Routine α} (hx : D.Keeps g x x')
    (hh : ∀ a, h' (move D.ρ a) = move D.ρ (h a)) : D.Keeps g (h <$> x) (h' <$> x') :=
  D.bind hx fun a => D.pure (hh a)

theorem ite {c : Prop} [Decidable c] {x x' y y' : Routine α} (hx : D.Keeps g x x')
    (hy : D.Keeps g y y') : D.Keeps g (if c then x else y) (if c then x' else y') := by
  split
  · exact hx
  · exact hy

theorem ofExcept {r : Except Fault α} (hr : ∀ fault, r = .error fault → fault.Proper)
    (hsame : ∀ a : α, move D.ρ a = a) : D.Same g (Routine.ofExcept r) := by
  cases r with
  | ok a => exact D.pure (hsame a).symm
  | error fault => exact fail (hr fault rfl)

theorem forM {γ : Type} {h h' : γ → Routine Unit} {u : γ → γ} (l : List γ)
    (hh : ∀ a ∈ l, D.Keeps g (h a) (h' (u a))) : D.Keeps g (l.forM h) ((l.map u).forM h') := by
  induction l with
  | nil => exact D.pure rfl
  | cons a rest ih =>
    exact D.bind (hh a (List.mem_cons_self ..)) fun _ => ih fun b hb =>
      hh b (List.mem_cons_of_mem _ hb)

theorem forM_same {γ : Type} {h h' : γ → Routine Unit} (l : List γ)
    (hh : ∀ a ∈ l, D.Keeps g (h a) (h' a)) : D.Keeps g (l.forM h) (l.forM h') := by
  have hall := forM (u := id) l hh
  rwa [List.map_id] at hall

end Routines

section Access

theorem found (name : String) (c : Option CellId) : D.Along g (Eval.found name) c := by
  cases c with
  | none => exact fail trivial
  | some c => exact D.pure rfl

theorem memberCell (accessor target : ObjectId) (name : String) :
    D.Keeps g (Eval.memberCell accessor target name)
      (Eval.memberCell (move D.ρ accessor) (move D.ρ target) name) := by
  refine D.bind (see fun s s' hs => ?_) fun c => found name c
  rw [hs.memberScope, hs.lookupIn]

theorem operatorCell (target : ObjectId) (op : String) :
    D.Keeps g (Eval.operatorCell target op) (Eval.operatorCell (move D.ρ target) op) := by
  refine D.bind (see fun _ _ hs => hs.lookup (.part target .operators) op) fun c => ?_
  cases c with
  | none => exact D.bind (see fun _ _ hs => hs.typeName target) fun _ => fail trivial
  | some c => exact D.pure rfl

namespace Binds

variable (hk : D.Binds k)
include hk

theorem readCell (c : CellId) (receiver : Option ObjectId) :
    D.Along₂ g (Eval.readCell k) c receiver := by
  refine D.bind (see fun _ _ hs => hs.cell c) fun content => ?_
  cases content with
  | var v => exact D.pure rfl
  | const v => exact D.pure rfl
  | computed getter setter => exact hk.calls g getter receiver []
  | view shown => exact D.bind (D.touch ⟨trivial, trivial, nofun⟩) fun _ => hk.reads ..

theorem readVia (via via' : Route) (c : CellId) (receiver : Option ObjectId) :
    D.Keeps g (Eval.readVia k via c receiver)
      (Eval.readVia k via' (move D.ρ c) (move D.ρ receiver)) :=
  D.bind (D.touch ⟨trivial, trivial, nofun⟩) fun _ => hk.readCell c receiver

theorem writeVia {via via' : Route} (hvia : via.Direct) (c : CellId) (receiver : Option ObjectId)
    (value : ObjectId) : D.Keeps g (Eval.writeVia k via c receiver value)
      (Eval.writeVia k via' (move D.ρ c) (move D.ρ receiver) (move D.ρ value)) := by
  refine D.bind (D.touch ⟨hvia, trivial, nofun⟩) fun _ =>
    D.bind (see fun _ _ hs => hs.cell c) fun content => ?_
  cases content with
  | var v => exact D.assign c value
  | const v => exact fail trivial
  | computed getter setter =>
    cases setter with
    | none => exact fail trivial
    | some setter => exact map (hk.calls g setter receiver [value]) fun _ => rfl
  | view shown => exact fail trivial

theorem builtin (name : String) : D.Same g (Eval.builtin k name) :=
  D.bind (D.read (fun _ _ _ _ => rfl) fun _ _ hm => hm.builtins) fun t =>
    D.bind (see fun _ _ hs => hs.lookup t name) fun c =>
    D.bind (D.doing _ (found name c)) fun c => hk.readVia _ _ c none

theorem nothing : D.Same g (Eval.nothing k) := hk.builtin "nothing"

theorem moduleNamed (name : String) : D.Same g (Eval.moduleNamed k name) :=
  D.bind (D.read (fun _ _ _ _ => rfl) fun _ _ hm => hm.modules) fun t =>
    D.bind (see fun _ _ hs => hs.lookup t name) fun c => D.bind (found name c) fun c =>
    hk.readVia _ _ c none

omit hk in
/-- A name is looked up in the running activation. -/
theorem lookup (name : String) : D.Same g (Routine.read (·.lookup name)) :=
  D.read (fun _ below earlier hm => lookup_onto below earlier hm name) fun _ _ hm => hm.lookup name

omit hk in
theorem runningName : D.Same g (Routine.read (·.runningName)) :=
  D.read (fun _ below earlier hm => runningName_onto below earlier hm) fun _ _ hm => hm.runningName

theorem getName (name : String) : D.Same g (Eval.getName k name) :=
  D.bind (lookup name) fun c => D.bind (found name c) fun c => hk.readVia _ _ c none

theorem setName (name : String) (value : ObjectId) : D.Along g (Eval.setName k name) value :=
  D.bind (lookup name) fun c => D.bind (found name c) fun c => hk.writeVia (by trivial) c none value

theorem dispatch (target : ObjectId) (op : String) (args : List ObjectId) :
    D.Keeps g (Eval.dispatch k target op args)
      (Eval.dispatch k (move D.ρ target) op (move D.ρ args)) := by
  refine D.bind (D.doing _ (operatorCell target op)) fun c =>
    D.bind (hk.readVia _ _ c (some target)) fun f => ?_
  have hreceiver : (if move D.ρ f = move D.ρ target then none else some (move D.ρ target)) =
      move D.ρ (if f = target then none else some target) := by
    simp only [move_inj_object]
    split <;> rfl
  rw [hreceiver]
  exact hk.calls g f _ args

theorem setMember (target : ObjectId) (name : String) (value : ObjectId) :
    D.Keeps g (Eval.setMember k target name value)
      (Eval.setMember k (move D.ρ target) name (move D.ρ value)) :=
  D.bind_peek nofun fun a _ => D.bind (memberCell a.owner target name) fun c =>
    hk.writeVia (by trivial) c (some target) value

end Binds

end Access

section Objects

theorem makeMethod (owner : ObjectId) (hcode : ∀ R ∈ D.registry, code.Proper R) :
    D.Along₂ g Eval.makeMethod owner code :=
  D.bind_rooted (fun _ => rfl) (Store.regular_method · owner code) hcode fun o =>
    D.bind (D.definePart (c := .const o) (by simp) fun _ _ => by decide) fun _ => D.pure rfl

theorem defineMethod (o : ObjectId) (p : Part) (hcode : ∀ R ∈ D.registry, code.Proper R)
    (hname : ∀ _ ∈ D.registry, p.rule.accepts code.name = true) :
    D.Keeps (D.parts g o) (Eval.defineMethod o p code)
      (Eval.defineMethod (move D.ρ o) p (move D.ρ code)) :=
  D.bind (makeMethod o hcode) fun f => D.definePart (c := .const f) (by simp) hname

theorem maybeMethod (o : ObjectId) {code : Option Code}
    (hcode : ∀ R ∈ D.registry, ∀ c, code = some c → c.Proper R) :
    D.Along₂ g Eval.maybeMethod o code := by
  cases code with
  | none => exact D.pure rfl
  | some code => exact map (makeMethod o fun R hR => hcode R hR code rfl) fun _ => rfl

/-- A property that has a setter has a getter, so that its cell can be made. -/
theorem Binds.defineProperty (hk : D.Binds k) (o : ObjectId) {p : PropertyPlan}
    (hp : ∀ R ∈ D.registry, p.Proper R) : D.Along₂ (D.parts g o) (Eval.defineProperty k) o p := by
  obtain ⟨name, getter, setter⟩ := p
  have hname : ∀ _ ∈ D.registry, Part.members.rule.accepts name = true := fun R hR => (hp R hR).name
  cases getter with
  | none =>
    cases setter with
    | none =>
      change D.Keeps _ ((Eval.nothing k >>= fun v => newCell (.var v)) >>= _)
        ((Eval.nothing k >>= fun v => newCell (.var v)) >>= _)
      rw [bind_assoc, bind_assoc]
      exact D.bind hk.nothing fun v => D.definePart (c := .var v) (by simp) hname
    | some setter => exact D.bind_fail fun R hR => absurd rfl ((hp R hR).setter setter rfl).2
  | some getter =>
    change D.Keeps _ ((Eval.maybeMethod o setter >>= fun s => Eval.makeMethod o getter >>= fun g =>
      newCell (.computed g s)) >>= _) ((Eval.maybeMethod (move D.ρ o) (move D.ρ setter) >>= fun s =>
      Eval.makeMethod (move D.ρ o) (move D.ρ getter) >>= fun g => newCell (.computed g s)) >>= _)
    simp only [bind_assoc]
    refine D.bind (maybeMethod o fun R hR c hc => ((hp R hR).setter c hc).1) fun s => ?_
    exact D.bind (makeMethod o fun R hR => (hp R hR).getter getter rfl) fun g =>
      D.definePart (c := .computed g s) (by simp) hname

theorem Binds.superOf (hk : D.Binds k) (o : ObjectId) : D.Along g (Eval.superOf k) o := by
  refine D.bind (see fun _ _ hs => hs.base o) fun base => ?_
  cases base with
  | none => exact hk.nothing
  | some b => exact D.pure rfl

theorem defineLocal_doing {a : Activation} {t : TableId} {rest : List TableId}
    (ha : a.scopes = t :: rest) (name : String) (v : ObjectId) (task : Task) :
    (newCell (.const v) >>= fun c => (defineLocal a name c).doing task) =
      (defineConst t name v).doing task := by
  simp only [defineLocal, ha]
  exact ext (fun m => (Resumes.doing rfl task).run) fun m => (Resumes.doing rfl task).moments

/-- A constant in the innermost scope of an activation that is not running yet. -/
theorem defineOwn {a : Activation} {t : TableId} {rest : List TableId} (ha : a.scopes = t :: rest)
    (hname : NameRule.symbol.accepts name = true) (v : ObjectId) (task : Task) :
    D.Keeps (D.table g t) (newCell (.const v) >>= fun c => (defineLocal a name c).doing task)
      (newCell (.const (move D.ρ v)) >>= fun c =>
        (defineLocal (move D.ρ a) name c).doing task) := by
  rw [defineLocal_doing ha, defineLocal_doing (congrArg (move D.ρ) ha)]
  exact D.doing task (D.define v fun _ _ => hname)

section

variable (hk : D.Binds k)
include hk

/-- The rest runs in the new activation. -/
theorem Binds.ownedActivation (owner this : ObjectId) (name : String) {home : Option TableId}
    (hhome : ∀ R ∈ D.registry, ∀ t, home = some t → t.Plain R) {x x' : Routine β}
    (hx : ∀ g, D.Keeps (D.called g) x x') : D.Keeps g
      (Eval.ownedActivation k owner this name home >>= fun a => Routine.withActivation a x)
      (Eval.ownedActivation k (move D.ρ owner) (move D.ρ this) name (move D.ρ home) >>=
        fun a => Routine.withActivation a x') := by
  have hrest : ∀ {γ : Type} (y : Routine γ) (h : CellId → Routine Unit) (v : ObjectId),
      (newCell (.const v) >>= fun c => h c >>= fun _ => y) =
        (newCell (.const v) >>= h) >>= fun _ => y := fun y h v => (bind_assoc ..).symm
  simp only [Eval.ownedActivation, bind_assoc, pure_bind]
  refine D.bind (hk.superOf owner) fun base =>
    D.bind_newActivation hhome fun a t rest ha hscopes => ?_
  refine D.bind (see fun _ _ hs => hs.face this) fun face => ?_
  simp only [hrest]
  refine D.bind (defineOwn hscopes (by decide) face _) fun _ => ?_
  exact D.bind (defineOwn hscopes (by decide) base _) fun _ => D.withActivation ha (hx _)

theorem Binds.defineField (hb : ∀ R ∈ D.registry, b.Proper R) (o : ObjectId)
    (hcell : ∀ v x, cell v ≠ .view x) (hmove : ∀ v, cell (move D.ρ v) = move D.ρ (cell v))
    {f : FieldPlan} (hf : ∀ _ ∈ D.registry, f.Proper) : D.Keeps (D.parts g o)
      (Eval.defineField k b o cell f) (Eval.defineField k (move D.ρ b) (move D.ρ o) cell f) := by
  obtain ⟨name, value⟩ := f
  refine D.bind (D.touch ⟨trivial, trivial, nofun⟩) fun _ => D.bind ?_ fun v => ?_
  · cases value with
    | none => exact hk.nothing
    | some e =>
      exact hk.ownedActivation _ _ _ (fun R hR => (hb R hR).home) fun _ =>
        hk.evaluates _ e fun x hx R hR => (hf R hR).value x hx
  · rw [hmove]
    exact D.defineField (hcell v) fun R hR => (hf R hR).name

theorem Binds.fillLevel (hb : ∀ R ∈ D.registry, b.Proper R) (o : ObjectId) :
    D.Along₂ (D.parts g o) (Eval.fillLevel k) b o := by
  refine D.bind (forM _ fun c hc => ?_) fun _ => D.bind (forM _ fun c hc => ?_) fun _ =>
    D.bind (forM _ fun p hp => hk.defineProperty o fun R hR => (hb R hR).properties p hp) fun _ =>
      D.bind (forM_same _ fun f hf => ?_) fun _ => forM_same _ fun f hf => ?_
  · exact defineMethod o _ (fun R hR => ((hb R hR).operators c hc).1) fun R hR =>
      ((hb R hR).operators c hc).2
  · exact defineMethod o _ (fun R hR => ((hb R hR).methods c hc).1) fun R hR =>
      ((hb R hR).methods c hc).2
  · exact hk.defineField hb o (by simp) (fun _ => rfl) fun R hR => (hb R hR).vals f hf
  · exact hk.defineField hb o (by simp) (fun _ => rfl) fun R hR => (hb R hR).vars f hf

omit hk in
/-- The rest knows that the blueprint is proper. -/
theorem bind_blueprint (c : ObjectId) {f f' : Blueprint → Routine β}
    (hf : ∀ b, (∀ R ∈ D.registry, b.Proper R) → D.Keeps g (f b) (f' (move D.ρ b))) :
    D.Keeps g (Eval.blueprint c >>= f) (Eval.blueprint (move D.ρ c) >>= f') := by
  have hother : D.Keeps g ((Routine.see (·.describe c) >>= fun text =>
      (Routine.fail (.notClass text) : Routine Blueprint)) >>= f)
      ((Routine.see (·.describe (move D.ρ c)) >>= fun text => Routine.fail (.notClass text))
        >>= f') := by
    rw [bind_assoc, bind_assoc]
    exact D.bind (see fun _ _ hs => hs.describe c) fun _ => D.bind_fail fun _ _ => trivial
  rw [Eval.blueprint, Eval.blueprint, bind_assoc, bind_assoc]
  refine D.bind_kind c fun kind hkind => ?_
  cases kind with
  | ofClass b =>
    change D.Keeps g (Pure.pure b >>= f) (Pure.pure (move D.ρ b) >>= f')
    rw [pure_bind, pure_bind]
    exact hf b hkind
  | _ => exact hother

theorem Binds.makeBase (b : Blueprint) : D.Along g (Eval.makeBase k) b := by
  obtain ⟨name, base, operators, methods, properties, vals, vars, home⟩ := b
  cases base with
  | none => exact D.pure rfl
  | some base => exact map (hk.dispatch base "()" []) fun _ => rfl

/-- The rest may bind names in the top level. -/
theorem Binds.bind_instantiate (c : ObjectId) (hkind : D.Content kind)
    {f f' : ObjectId → Routine β} (hf : ∀ o, D.Keeps (D.parts g o) (f o) (f' (move D.ρ o))) :
    D.Keeps g (Eval.instantiate k c kind >>= f)
      (Eval.instantiate k (move D.ρ c) (move D.ρ kind) >>= f') := by
  simp only [Eval.instantiate, bind_assoc, pure_bind]
  refine D.bind (D.touch ⟨trivial, trivial, nofun⟩) fun _ => bind_blueprint c fun b hb => ?_
  refine D.bind (hk.makeBase b) fun _ =>
    D.bind_newObject hkind.regular hkind.proper hkind.value fun o => ?_
  exact D.bind (hk.fillLevel hb o) fun _ =>
    D.bind (D.alike (fun s => s.wearFace_alike o) fun _ _ hs => hs.wearFace o) fun _ =>
    D.bind (D.alike (fun s => s.setType_alike o c) fun _ _ hs => hs.setType o c) fun _ => hf o

/-- An instance that holds a value. -/
theorem Binds.instantiate (c : ObjectId) (hkind : D.Content kind) :
    D.Along₂ g (Eval.instantiate k) c kind := by
  unfold Along₂
  rw [← bind_pure (Eval.instantiate k c kind), ← bind_pure (Eval.instantiate k (move D.ρ c) _)]
  exact hk.bind_instantiate c hkind fun o => D.pure rfl

/-- A callable on a level of its own. -/
theorem Binds.callable (name : String) (hkind : D.Content kind) : D.Keeps g
      (do let o ← Eval.instanceOf k name kind; Eval.answerCall o; return o : Routine ObjectId)
      (do let o ← Eval.instanceOf k name (move D.ρ kind); Eval.answerCall o; return o) := by
  rw [Eval.instanceOf, Eval.instanceOf, bind_assoc, bind_assoc]
  exact D.bind (hk.builtin name) fun c => hk.bind_instantiate c hkind fun o =>
    D.bind (D.definePart (c := .const o) (by simp) fun _ _ => by decide) fun _ => D.pure rfl

end

theorem makeClass (hb : ∀ R ∈ D.registry, b.Proper R) : D.Along g Eval.makeClass b := by
  refine D.bind_rooted (fun _ => rfl) (fun _ => ⟨by simp, by simp, by simp, by simp⟩) hb fun c => ?_
  refine D.bind (makeMethod c fun _ _ => Code.proper_primitive _ (by simp))
    fun f => ?_
  refine D.bind (D.definePart (c := .const f) (by simp) fun _ _ => by decide) fun _ => ?_
  refine D.bind (D.definePart (c := .const f) (by simp) fun _ _ => by decide) fun _ =>
    D.bind ?_ fun _ => D.bind (D.note _ _) fun _ => D.pure rfl
  exact D.bind (makeMethod c fun _ _ => Code.proper_primitive _ (by simp))
    fun getter => D.definePart (c := .computed getter none) (by simp) fun _ _ => by decide

end Objects

section Primitives

theorem getElem?_move (args : List ObjectId) (i : Nat) :
    (move D.ρ args)[i]? = move D.ρ args[i]? := List.getElem?_map

theorem argument (args : List ObjectId) (i : Nat) :
    D.Keeps g (Eval.argument args i) (Eval.argument (move D.ρ args) i) := by
  rw [Eval.argument, Eval.argument, getElem?_move]
  cases args[i]? with
  | none => exact fail trivial
  | some a => exact D.pure rfl

theorem expectString (o : ObjectId) {fault : String → Fault}
    (hfault : ∀ text, (fault text).Proper) :
    D.Keeps g (Eval.expectString o fault) (Eval.expectString (move D.ρ o) fault) := by
  refine D.bind (see fun _ _ hs => ?_) fun text => ?_
  · exact (hs.asString o).trans (by cases Store.asString _ o <;> rfl)
  · cases text with
    | none => exact D.bind (see fun _ _ hs => hs.typeName o) fun type => fail (hfault type)
    | some text => exact D.pure rfl

theorem number (o : ObjectId) : D.Along g Eval.number o := by
  refine D.bind (see fun _ _ hs => by rw [hs.face, hs.kind]) fun kind => ?_
  have hother : D.Keeps g
      (do Routine.fail (.notNumber (← Routine.see (·.typeName o))) : Routine Number)
      (do Routine.fail (.notNumber (← Routine.see (·.typeName (move D.ρ o))))) :=
    D.bind (see fun _ _ hs => hs.typeName o) fun _ => fail trivial
  cases kind with
  | integer n => exact D.pure rfl
  | float x => exact D.pure rfl
  | _ => exact hother

namespace Binds

variable (hk : D.Binds k)
include hk

theorem instanceOf (name : String) (hkind : D.Content kind) :
    D.Along g (Eval.instanceOf k name) kind :=
  D.bind (hk.builtin name) fun c => hk.instantiate c hkind

theorem string (s : String) : D.Same g (Eval.string k s) :=
  hk.instanceOf _ ⟨fun _ => ⟨by simp, by simp, by simp, by simp⟩, fun _ _ => trivial, id⟩

theorem integer (i : Int64) : D.Same g (Eval.integer k i) :=
  hk.instanceOf _ ⟨fun _ => ⟨by simp, by simp, by simp, by simp⟩, fun _ _ => trivial, id⟩

theorem float (x : Float) : D.Same g (Eval.float k x) :=
  hk.instanceOf _ ⟨fun _ => ⟨by simp, by simp, by simp, by simp⟩, fun _ _ => trivial, id⟩

theorem getMember (target : ObjectId) (name : String) :
    D.Keeps g (Eval.getMember k target name) (Eval.getMember k (move D.ρ target) name) :=
  D.bind (hk.string name) fun text => hk.dispatch target "." [text]

theorem toText (o : ObjectId) : D.Along g (Eval.toText k) o := by
  refine D.bind_attempt (hk.getMember o "string") (fun result hresult => ?_) fun e he => ?_
  · cases result with
    | ok text => exact see fun _ _ hs => by rw [hs.asString, hs.describe]; rfl
    | error e =>
      have hraise := hresult e rfl
      cases e with
      | fault f =>
        cases f with
        | unknownName name => exact see fun _ _ hs => hs.describe o
        | _ => exact hraise
      | _ => exact hraise
  · cases e with
    | fatal => rfl
    | _ => cases he

theorem memberOf (hsees : D.Sees g) (this : ObjectId) (args : List ObjectId) :
    D.Along₂ g (Eval.memberOf k) this args :=
  D.bind (argument args 0) fun name => D.bind (expectString name fun _ => trivial) fun _ =>
    D.bind_peek (fun _ => ⟨hsees, rfl⟩) fun caller _ => D.bind (memberCell caller.owner this _)
    fun c => hk.readVia _ _ c (some this)

theorem replicate (this : ObjectId) (args : List ObjectId) :
    D.Along₂ g (Eval.replicate k) this args := by
  refine D.bind (expectString this fun _ => trivial) fun _ => D.bind (argument args 0) fun count =>
    D.bind (see fun _ _ hs => ?_) fun n => ?_
  · exact (hs.asInteger count).trans (by cases Store.asInteger _ count <;> rfl)
  · cases n with
    | none => exact D.bind (see fun _ _ hs => hs.typeName count) fun _ => fail trivial
    | some n => exact ite (fail trivial) (ite (fail trivial) (hk.string _))

theorem arithmetic (op : Arith) (this : ObjectId) (args : List ObjectId) :
    D.Along₂ g (Eval.arithmetic k op) this args := by
  refine D.bind (number _) fun a => D.bind (argument args 0) fun _ => D.bind (number _) fun b => ?_
  cases a <;> cases b
  · refine D.bind (ofExcept (fun _ h => ?_) fun _ => rfl) fun _ => hk.integer _
    rcases Arith.error_of_integers h with rfl | rfl <;> trivial
  all_goals
    refine D.bind (ofExcept (fun _ h => ?_) fun _ => rfl) fun _ => hk.float _
    obtain rfl := Arith.error_of_floats h
    trivial

theorem isa (this : ObjectId) (args : List ObjectId) : D.Along₂ g (Eval.isa k) this args := by
  refine D.bind (argument args 0) fun type => D.bind_see (fun _ _ hs => ?_) fun s => ?_
  · exact (hs.isa this type).trans (by cases Store.isa _ this type <;> rfl)
  · have hsame : move D.ρ (s.isa this type) = s.isa this type := by
      cases s.isa this type <;> rfl
    rw [hsame]
    refine D.bind (ofExcept (fun _ h => ?_) fun _ => rfl) fun b => hk.builtin _
    obtain rfl := Store.error_of_isa h
    trivial

/-- Only a primitive that raises a fault on purpose could raise an improper one. -/
theorem perform (hsees : p.SeesCaller → D.Sees g) (hp : ∀ _ ∈ D.registry, ∀ f, p ≠ .raise f)
    (this : ObjectId) (args : List ObjectId) : D.Along₂ g (Eval.perform k p) this args := by
  cases p with
  | member => exact hk.memberOf (hsees trivial) this args
  | isa => exact hk.isa this args
  | unsupported op => exact D.bind (see fun _ _ hs => hs.typeName this) fun _ => fail trivial
  | describe => exact D.bind (see fun _ _ hs => hs.describe this) fun _ => hk.string _
  | typeOf =>
    refine D.bind (see fun _ _ hs => by rw [hs.face, hs.type]) fun type => ?_
    cases type with
    | none => exact hk.nothing
    | some type => exact D.pure rfl
  | identity =>
    refine D.bind (see fun _ _ hs => hs.face this) fun face => D.bind_identifies fun hface => ?_
    rw [hface]
    exact hk.integer _
  | concat =>
    exact D.bind (expectString this fun _ => trivial) fun _ => D.bind (argument args 0) fun _ =>
      D.bind (hk.toText _) fun _ => hk.string _
  | replicate => exact hk.replicate this args
  | print =>
    exact D.bind (argument args 0) fun _ => D.bind (hk.toText _) fun _ =>
      D.bind (D.writeLine _) fun _ => hk.nothing
  | arithmetic op => exact hk.arithmetic op this args
  | construct =>
    exact D.bind (see fun _ _ hs => hs.face this) fun c => hk.instantiate c
      ⟨fun _ => ⟨by simp, by simp, by simp, by simp⟩, fun _ _ => trivial, id⟩
  | definitionName =>
    refine D.bind (see fun _ _ hs => ?_) fun _ => hk.string _
    rw [hs.face, hs.kind, definitionName_move]
    rfl
  | receiver => exact D.pure rfl
  | argument i =>
    unfold Along₂
    rw [Eval.perform, Eval.perform, getElem?_move]
    cases args[i]? with
    | none => exact hk.nothing
    | some a => exact D.pure rfl
  | argumentCount =>
    have hlength : (move D.ρ args).length = args.length := List.length_map ..
    unfold Along₂
    rw [Eval.perform, Eval.perform, hlength]
    exact hk.integer _
  | raise f => exact raise fun R hR => absurd rfl (hp R hR f)
  | activationName => exact D.bind runningName fun _ => hk.string _
  | callerText =>
    exact D.bind_peek (fun _ => ⟨hsees trivial, rfl⟩) fun caller _ =>
      D.bind (see fun _ _ hs => hs.describe caller.owner) fun _ => hk.string _

end Binds

end Primitives

section Calls

theorem bindParams {names : List String} (hnames : Mention.Each D.Takes (Mention.symbols names))
    (scope : TableId) (args : List ObjectId) : D.Keeps (D.table g scope)
      (Eval.bindParams scope names args)
      (Eval.bindParams (move D.ρ scope) names (move D.ρ args)) := by
  induction names generalizing args with
  | nil => exact D.pure rfl
  | cons name names ih =>
    obtain ⟨hname, hrest⟩ := Mention.each_cons.mp hnames
    cases args with
    | nil => exact D.pure rfl
    | cons value values => exact D.bind (D.define value hname) fun _ => ih hrest values

theorem takeArguments (caller : String) (hcode : ∀ R ∈ D.registry, code.Proper R) (scope : TableId)
    (args : List ObjectId) :
    D.Along₃ (D.table g scope) (Eval.takeArguments caller) code scope args := by
  have hlength : (move D.ρ args).length = args.length := List.length_map ..
  obtain ⟨name, params, body, home⟩ := code
  cases params with
  | any => exact D.pure rfl
  | fixed names =>
    change D.Keeps _ (if names.length ≠ args.length then _ else _)
      (if names.length ≠ (move D.ρ args).length then
        Routine.fail (.arity caller name names.length (move D.ρ args).length)
      else Eval.bindParams (move D.ρ scope) names (move D.ρ args))
    rw [hlength]
    exact ite (fail trivial)
      (bindParams (fun x hx R hR => (hcode R hR).params names rfl x hx) scope args)

/-- Code runs in a scope of its own, so that it relies on nothing of its activation. -/
theorem Binds.runCode (hk : D.Binds k) (caller : String) (this : ObjectId)
    (hsees : code.SeesCaller → D.Sees g) (hcode : ∀ R ∈ D.registry, code.Proper R)
    (args : List ObjectId) : D.Along₃ g (Eval.runCode k caller) this code args := by
  refine D.bind_newTable fun scope => D.bind (takeArguments caller hcode scope args) fun _ =>
    D.withScope ?_
  have hbody : ∀ _ ∈ D.registry, code.body.Proper := fun R hR => (hcode R hR).body
  change D.Along₂ _ (Eval.enter k code.body) this args
  cases hcase : code.body with
  | primitive p =>
    rw [hcase] at hbody
    exact hk.perform (fun hp => D.sees_head (hsees ⟨p, hcase, hp⟩)) hbody this args
  | block b =>
    rw [hcase] at hbody
    exact D.bind_newTable fun t => D.withScope (map
      (hk.executes _ b fun x hx R hR => hbody R hR x hx) fun flow => by cases flow <;> rfl)

theorem Binds.invoke (hk : D.Binds k) (f : ObjectId) (receiver : Option ObjectId)
    (args : List ObjectId) : D.Along₃ g (Eval.invoke k) f receiver args := by
  refine D.bind_kind f fun kind hkind => ?_
  have hother := hk.dispatch (g := g) f "()" args
  cases kind with
  | method owner code =>
    have hthis : (move D.ρ receiver).getD (move D.ρ owner) = move D.ρ (receiver.getD owner) :=
      Option.getD_map ..
    change D.Keeps g (Eval.callMethod k owner code receiver args)
      (Eval.callMethod k (move D.ρ owner) (move D.ρ code) (move D.ρ receiver) (move D.ρ args))
    rw [Eval.callMethod, Eval.callMethod, hthis]
    exact D.bind runningName fun caller => hk.ownedActivation _ _ _ (fun R hR => (hkind R hR).home)
      fun g => hk.runCode caller _ (fun _ => D.sees_called g) hkind args
  | function code =>
    exact D.bind runningName fun caller => D.bind_newActivation (fun R hR => (hkind R hR).home)
      fun a t rest ha _ => D.withActivation ha
      (hk.runCode caller f (fun _ => D.sees_called _) hkind args)
  | closure code captured =>
    have hcaptured : ∀ R ∈ D.registry, (captured.renamed code.name).Proper R := fun R hR =>
      ⟨(hkind R hR).2.scopes, (hkind R hR).2.home⟩
    exact D.bind runningName fun caller => D.withActivation hcaptured
      (hk.runCode caller f (fun _ => D.sees_called _) (fun R hR => (hkind R hR).1) args)
  | _ => exact hother

end Calls

section Expressions

namespace Binds

variable (hk : D.Binds k)
include hk

theorem declareFunction (name : String) (hparams : Mention.Each D.Takes (Mention.symbols params))
    (hbody : Mention.Each D.Takes (Statement.mentionsAll body)) :
    D.Same g (Eval.declareFunction k name params body) :=
  D.bind_peek nofun fun _ ha => hk.callable _
    ⟨(Store.regular_function · (Code.not_seesCaller_block _ _ _ _)), fun R hR =>
      Code.proper_block (ha R hR).home name (each_proper hparams hR) (each_proper hbody hR), id⟩

theorem declareClosure (hparams : Mention.Each D.Takes (Mention.symbols params))
    (hbody : Mention.Each D.Takes (Statement.mentionsAll body)) :
    D.Same g (Eval.declareClosure k params body) :=
  D.bind_peek nofun fun _ ha => D.bind_capture ha fun _ copy hcopy => hk.callable _
    ⟨(Store.regular_closure · copy (Code.not_seesCaller_block _ _ _ _)), fun R hR =>
      ⟨Code.proper_block (hcopy R hR).home _ (each_proper hparams hR) (each_proper hbody hR),
        hcopy R hR⟩, id⟩

theorem evaluateAll {es : List Expr} (hes : Mention.Each D.Takes (Expr.mentionsAll es)) :
    D.Same g (Eval.evaluateAll k es) := by
  induction es with
  | nil => exact D.pure rfl
  | cons e rest ih =>
    obtain ⟨he, hrest⟩ := Mention.each_append.mp hes
    exact D.bind (hk.evaluates g e he) fun _ => D.bind (ih hrest) fun _ => D.pure rfl

theorem evaluate {e : Expr} (he : Mention.Each D.Takes e.mentions) :
    D.Same g (Eval.evaluate k e) := by
  rw [Eval.evaluate.eq_def]
  split <;> simp only [Expr.mentions, Mention.each_append, Mention.each_cons] at he
  · exact hk.integer _
  · exact hk.float _
  · exact hk.string _
  · exact hk.getName _
  · exact D.bind (hk.evaluates _ _ he.1) fun l => D.bind (hk.evaluates _ _ he.2) fun r =>
      hk.dispatch l _ [r]
  · exact D.bind (hk.evaluates _ _ he.1.2) fun t => D.bind (hk.evaluateAll he.2) fun vs =>
      D.bind (hk.getMember ..) fun f => hk.calls _ f (some t) vs
  · exact D.bind (hk.evaluates _ _ he.1) fun f => D.bind (hk.evaluateAll he.2) fun vs =>
      hk.calls _ f none vs
  · exact D.bind (hk.evaluates _ _ he.1) fun _ => D.bind (hk.evaluateAll he.2) fun _ =>
      hk.dispatch ..
  · exact D.bind (hk.evaluates _ _ he.2) fun _ => hk.getMember ..
  · exact hk.declareFunction _ he.1 he.2
  · exact hk.declareClosure he.1 he.2

theorem evaluateOr {e : Option Expr} (he : Mention.Each D.Takes (Expr.mentionsIn e)) :
    D.Same g (Eval.evaluateOr k e) := by
  cases e with
  | none => exact hk.nothing
  | some e => exact hk.evaluates g e he

theorem assigned (op : Option Arith) {x x' : Routine ObjectId} (hx : D.Keeps g x x')
    {value : Expr} (hvalue : Mention.Each D.Takes value.mentions) :
    D.Keeps g (Eval.assigned k op x value) (Eval.assigned k op x' value) := by
  cases op with
  | none => exact hk.evaluates g value hvalue
  | some op =>
    exact D.bind hx fun c => D.bind (hk.evaluates g value hvalue) fun v => hk.dispatch c _ [v]

theorem declareClass (name : String) {superclass : Option Expr}
    (hsuper : Mention.Each D.Takes (Expr.mentionsIn superclass))
    (hmembers : Mention.Each D.Takes (Member.mentionsAll members)) :
    D.Same g (Eval.declareClass k name superclass members) := by
  have hbase : D.Same g (Eval.superclassOf k superclass) := by
    cases superclass with
    | none => exact hk.builtin _
    | some e => exact hk.evaluates g e hsuper
  refine D.bind hbase fun base => bind_blueprint base fun _ _ => D.bind_peek nofun fun a ha => ?_
  change D.Keeps g _ (Eval.makeClass (Eval.declaredBlueprint (move D.ρ a.home) name _ members))
  rw [Eval.declaredBlueprint_move]
  exact makeClass fun R hR => Eval.declaredBlueprint_proper (ha R hR).home name base
    (each_proper hmembers hR)

end Binds

end Expressions

section Statements

/-- What a discipline says of modules. Statements that declare one or that export names are told as
a whole, with the moment at which they begin. -/
structure Modular (D : Discipline) : Prop where
  begins : ∀ {g s}, (∀ name body, s.command ≠ .declareModule name body) →
    (∀ names, s.command ≠ .exportNames names) → D.Same g (Routine.touch (.executes s))
  declares : ∀ {k g s name body}, D.Binds k → s.command = .declareModule name body →
    D.Takes (.name .dotted name) → Mention.Each D.Takes (Statement.mentionsAll body) →
      D.Same (D.head g) (Routine.touch (.executes s) >>= fun _ => Eval.declareModule k name body)
  exports : ∀ {g s names}, s.command = .exportNames names →
    D.Same (D.head g) (Routine.touch (.executes s) >>= fun _ => Eval.exportNames names)
  imports : ∀ {k g name binding}, D.Binds k → Mention.Each D.Takes binding.mentions →
    D.Same (D.head g) (Eval.importModule k name binding)

omit [Movable α] in
/-- A moment that comes first may count as part of what is left with an error. -/
theorem touch_onError (d : Deed) (x : Routine α) (deed : Error → Deed) (h : Error → Error) :
    (Routine.touch d >>= fun _ => x.onError deed h) =
      (Routine.touch d >>= fun _ => x).onError deed h := by
  refine ext (fun _ => rfl) fun m => ?_
  rw [moments_onError]
  simp only [moments_bind, moments_onError, List.append_assoc]
  rfl

theorem declareValue (hname : D.Takes (.name .symbol name)) (hcell : ∀ v x, cell v ≠ .view x)
    (hmove : ∀ v, cell (move D.ρ v) = move D.ρ (cell v)) (value : ObjectId) :
    D.Along (D.head g) (Eval.declareValue name cell) value := by
  have heq (v : ObjectId) : Eval.declareValue name cell v =
      (newCell (cell v) >>= Routine.declare name) >>= fun _ => Pure.pure (.next v) :=
    (bind_assoc ..).symm
  unfold Along
  rw [heq, heq, hmove]
  exact D.bind (D.declare (hcell value) hname) fun _ => D.pure rfl

variable (hD : D.Modular)
include hD

namespace Modular

theorem runCommand (hk : D.Binds k) (s : Statement) (hs : Mention.Each D.Takes s.command.mentions) :
    D.Same (D.head g) (Routine.touch (.executes s) >>= fun _ => Eval.runCommand k s.command) := by
  cases hc : s.command with
  | declareModule name body =>
    simp only [hc, Command.mentions, Mention.each_cons] at hs
    rw [Eval.runCommand, map_eq_pure_bind, ← bind_assoc]
    exact D.bind (hD.declares hk hc hs.1 hs.2) fun _ => D.pure rfl
  | exportNames names =>
    rw [Eval.runCommand, ← bind_assoc]
    exact D.bind (hD.exports hc) fun _ => map hk.nothing fun _ => rfl
  | _ =>
    refine D.bind (hD.begins (by simp [hc]) (by simp [hc])) fun _ => ?_
    simp only [hc, Command.mentions, Mention.each_append, Mention.each_cons] at hs
    first
    | exact D.bind (hk.evaluates _ _ hs.2) fun v => declareValue hs.1 (by simp) (fun _ => rfl) v
    | exact D.bind (hk.evaluateOr hs.2) fun v => declareValue hs.1 (by simp) (fun _ => rfl) v
    | exact D.bind (hk.assigned _ (hk.getName _) hs.2) fun _ =>
        D.bind (hk.setName ..) fun _ => D.pure rfl
    | exact D.bind (hk.evaluates _ _ hs.2.1) fun t =>
        D.bind (hk.assigned _ (hk.getMember t _) hs.2.2) fun _ =>
        D.bind (hk.setMember ..) fun _ => D.pure rfl
    | exact map (hk.evaluateOr hs) fun _ => rfl
    | exact D.bind (hk.declareFunction _ hs.2.1 hs.2.2) fun v =>
        declareValue hs.1 (by simp) (fun _ => rfl) v
    | exact D.bind (hk.declareClass _ hs.2.1 hs.2.2) fun v =>
        declareValue hs.1 (by simp) (fun _ => rfl) v
    | exact D.bind (hD.imports hk hs.2) fun _ => map hk.nothing fun _ => rfl
    | exact map (hk.evaluates _ _ hs) fun _ => rfl

theorem runStatement (hk : D.Binds k) {s : Statement} (hs : Mention.Each D.Takes s.mentions) :
    D.Same (D.head g) (Eval.runStatement k s) := by
  have hcommand : Mention.Each D.Takes s.command.mentions := by
    cases s
    exact hs
  rw [Eval.runStatement, touch_onError]
  exact D.leaving s (hD.runCommand hk s hcommand)

theorem execute (hk : D.Binds k) {b : Block}
    (hb : Mention.Each D.Takes (Statement.mentionsAll b)) :
    D.Same (D.head g) (Eval.execute k b) := by
  refine D.bind hk.nothing fun last => ?_
  induction b generalizing last with
  | nil => exact D.pure rfl
  | cons s rest ih =>
    obtain ⟨hs, hrest⟩ := Mention.each_append.mp hb
    refine D.bind (hD.runStatement hk hs) fun flow => ?_
    cases flow with
    | next v => exact ih hrest v
    | back v => exact D.pure rfl

/-- The induction is on the depth: each level only hands its work on to the one below. -/
theorem ofDepth (d : Nat) : D.Binds (.ofDepth d) := by
  induction d with
  | zero => exact ⟨⟨0, rfl⟩, fun _ _ _ _ => D.outOfFuel, fun _ _ _ => D.outOfFuel,
      fun _ _ _ => D.outOfFuel, fun _ _ _ => D.outOfFuel⟩
  | succ d ih =>
    exact ⟨⟨d + 1, rfl⟩, fun _ f receiver args => ih.invoke f receiver args,
      fun _ c receiver => ih.readCell c receiver,
      fun _ e he => D.bind (D.touch ⟨trivial, trivial, nofun⟩) fun _ => ih.evaluate he,
      fun _ b hb => hD.execute ih hb⟩

end Modular

end Statements

/-- Programs need not be proper, and names may be bound anywhere, at any time. -/
structure Free (D : Discipline) : Prop where
  registry : D.registry = none
  head : ∀ g, D.head g = g
  executes : ∀ g s, D.Same g (Routine.touch (.executes s))
  rooted : ∀ g kind type, (∀ r, type (move D.ρ r) = move D.ρ (type r)) →
    D.Keeps g (Eval.makeRooted kind type) (Eval.makeRooted (move D.ρ kind) type)
  newCell : ∀ g c, D.Along g Routine.newCell c
  bindCell : ∀ g t name c,
    D.Keeps g (Routine.define t name c) (Routine.define (move D.ρ t) name (move D.ρ c))
  modifyTop : ∀ g f, (∀ a, f (move D.ρ a) = move D.ρ (f a)) →
    D.Same g (Routine.modify (·.modifyTop f))

namespace Free

theorem refuseTaken (name : String) : D.Same g (Eval.refuseTaken name) := by
  refine D.bind (D.read (fun _ _ _ _ => rfl) fun _ _ hm => hm.modules) fun t =>
    D.bind (see fun _ _ hs => hs.local? t name) fun c => ?_
  cases c with
  | none => exact D.pure rfl
  | some c => exact fail trivial

variable (hD : D.Free)
include hD

theorem proper (P : TableId → Prop) : ∀ R ∈ D.registry, P R := by simp [hD.registry]

theorem takes (xs : List Mention) : Mention.Each D.Takes xs := fun _ _ => hD.proper _

theorem declare (name : String) (c : CellId) : D.Along g (Routine.declare name) c := by
  refine D.bind_peek nofun fun a _ => ?_
  obtain ⟨owner, title, scopes, home, notes⟩ := a
  cases scopes with
  | nil => exact fail trivial
  | cons t rest => exact hD.bindCell ..

theorem runModuleBody (hk : D.Binds k) (o : ObjectId) (name : String) (body : Block) :
    D.Keeps g (Eval.runModuleBody k o name body) (Eval.runModuleBody k (move D.ρ o) name body) := by
  refine D.bind_newActivation (hD.proper _) fun a t rest ha _ => D.withActivation ha ?_
  refine D.bind ?_ fun _ => D.bind_peek nofun fun a _ =>
    D.pure (congrArg (Prod.mk (move D.ρ a.home)) (move_strings D.ρ _).symm)
  rw [← hD.head (D.called _)]
  exact hk.executes _ body (hD.takes _)

theorem showName (m : ModuleParts) (name : String) :
    D.Keeps g (Eval.showName m name) (Eval.showName (move D.ρ m) name) :=
  D.bind (see fun _ _ hs => hs.lookup m.hidden name) fun c => D.bind (found name c) fun c =>
    D.bind (hD.newCell g (.view c)) fun _ => D.doing _ (hD.bindCell ..)

theorem declareModule (hk : D.Binds k) (name : String) (body : Block) :
    D.Same g (Eval.declareModule k name body) := by
  refine D.bind (refuseTaken name) fun _ => D.bind_newTable fun hidden =>
    D.bind_newTable fun shown => ?_
  refine D.bind (hD.rooted _ (.ofModule ⟨name, hidden, shown⟩) _ fun _ => rfl) fun o =>
    D.bind (hD.runModuleBody hk o name body) fun ran => ?_
  obtain ⟨home, exports⟩ := ran
  refine D.bind (see fun _ _ hs => hs.sorted home) fun b =>
    D.bind (forM b fun _ _ => D.doing _ (hD.bindCell ..)) fun _ => ?_
  change D.Keeps _ _ (List.forM (move D.ρ exports) _ >>= _)
  rw [move_strings]
  refine D.bind (forM_same exports fun n _ => hD.showName ⟨name, hidden, shown⟩ n) fun _ =>
    D.bind (see fun _ _ hs => ?_) fun _ => D.bind (D.note _ _) fun _ =>
      D.bind ?_ fun _ => D.pure rfl
  · exact (congrArg List.length (hs.bindings shown)).trans (List.length_map ..)
  · exact D.bind (refuseTaken name) fun _ =>
      D.bind (D.read (fun _ _ _ _ => rfl) fun _ _ hm => hm.modules) fun t =>
      D.bind (hD.newCell _ (.const o)) fun c => hD.bindCell _ t name c

theorem exportNames (names : List String) : D.Same g (Eval.exportNames names) := by
  have hrecord (a : Activation) : names.foldl (·.record Activation.exportKey ·) (move D.ρ a) =
      move D.ρ (names.foldl (·.record Activation.exportKey ·) a) := by
    induction names generalizing a with
    | nil => rfl
    | cons name rest ih => rw [List.foldl_cons, Eval.record_move, ih, List.foldl_cons]
  refine D.bind_peek nofun fun a _ => D.bind (see fun _ _ hs => hs.kind a.owner) fun kind => ?_
  cases kind with
  | ofModule m => exact hD.modifyTop _ _ hrecord
  | _ => exact fail trivial

theorem importModule (hk : D.Binds k) (name : String) (binding : Binding) :
    D.Same g (Eval.importModule k name binding) := by
  refine D.bind (hk.moduleNamed name) fun o => D.bind (see fun _ _ hs => hs.kind o) fun kind => ?_
  cases kind with
  | ofModule m =>
    cases binding with
    | everything =>
      exact D.bind (see fun _ _ hs => hs.sorted m.shown) fun b => forM b fun _ _ => hD.declare ..
    | only names =>
      exact forM_same names fun n _ => D.bind (see fun _ _ hs => hs.lookup m.shown n) fun c =>
        D.bind (found n c) fun _ => hD.declare ..
    | under other =>
      exact D.bind (hD.rooted _ (.moduleAlias o m) _ fun _ => rfl) fun a =>
        D.bind (hD.newCell _ (.const a)) fun _ => hD.declare ..
  | _ => exact fail trivial

theorem modular : D.Modular where
  begins _ _ := hD.executes ..
  declares hk _ _ _ := D.bind (hD.executes ..) fun _ => hD.declareModule hk ..
  exports _ := D.bind (hD.executes ..) fun _ => hD.exportNames _
  imports hk _ := hD.importModule hk ..

end Free

end Discipline

end ObjectLang
