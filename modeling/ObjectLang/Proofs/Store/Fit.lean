import ObjectLang.Proofs.Store.Effect
import ObjectLang.Proofs.Syntax.Mentions

/-!
When a piece of data fits into a store: all identities that it names are given out there, all tables
that code runs on stand on their own, and all code in it is made of known statements.
-/
namespace ObjectLang

/-- What code may be made of: the statements that may occur in it, and the faults that it may raise.
The faults of the machine itself are always among them. -/
structure Stock where
  statement : Statement → Prop
  fault : Fault → Prop
  own : ∀ f, (∀ g text, f ≠ .raised g text) → fault f

namespace Stock

variable (W : Stock)

def block (b : Block) : Prop := ∀ s : Statement, s.Occurs b → W.statement s

def blocks (bs : List Block) : Prop := ∀ b ∈ bs, W.block b

def expr (e : Expr) : Prop := W.blocks e.bodies

def primitive (p : Primitive) : Prop := ∀ f, p = .raise f → W.fault f

def body : Body → Prop
  | .primitive p => W.primitive p
  | .block b => W.block b

variable {W} {b : Block} {args : List Expr} {ps : List String} {f : Expr}

theorem blocks_append {bs bs' : List Block} :
    W.blocks (bs ++ bs') ↔ W.blocks bs ∧ W.blocks bs' := by
  constructor
  · intro h
    exact ⟨fun b hb => h b (List.mem_append.mpr (Or.inl hb)),
      fun b hb => h b (List.mem_append.mpr (Or.inr hb))⟩
  · rintro ⟨h, h'⟩ b hb
    rcases List.mem_append.mp hb with hb | hb
    · exact h b hb
    · exact h' b hb

theorem blocks_singleton : W.blocks [b] ↔ W.block b := by simp [blocks]

theorem block_cons {s : Statement} :
    W.block (s :: b) ↔ W.statement s ∧ W.blocks s.command.bodies ∧ W.block b := by
  constructor
  · intro h
    refine ⟨h s (.here (List.mem_cons_self ..)), ?_, ?_⟩
    · intro body hbody x hx
      exact h x (.inside (List.mem_cons_self ..) hbody hx)
    · intro x hx
      cases hx with
      | here hmem => exact h x (.here (List.mem_cons_of_mem _ hmem))
      | inside ho hb hin => exact h x (.inside (List.mem_cons_of_mem _ ho) hb hin)
  · rintro ⟨hs, hbodies, hb⟩ x hx
    cases hx with
    | here hmem =>
      rcases List.mem_cons.mp hmem with rfl | hmem
      · exact hs
      · exact hb x (.here hmem)
    | inside ho hbody hin =>
      rcases List.mem_cons.mp ho with rfl | ho
      · exact hbodies _ hbody x hin
      · exact hb x (.inside ho hbody hin)

theorem expr_binary {op : Arith} {l r : Expr} : W.expr (.binary op l r) ↔ W.expr l ∧ W.expr r := by
  rw [expr, Expr.bodies, blocks_append, expr, expr]

theorem expr_of_mem {es : List Expr} (h : W.blocks (Expr.bodiesOfAll es)) :
    ∀ e ∈ es, W.expr e :=
  fun _ he _ hb => h _ (Expr.bodies_subset_bodiesOfAll he hb)

theorem expr_call (h : W.expr (.call f args)) :
    W.expr f ∧ ∀ e ∈ args, W.expr e := by
  rw [expr, Expr.bodies, blocks_append] at h
  exact ⟨h.1, expr_of_mem h.2⟩

theorem expr_index (h : W.expr (.index f args)) :
    W.expr f ∧ ∀ e ∈ args, W.expr e := by
  rw [expr, Expr.bodies, blocks_append] at h
  exact ⟨h.1, expr_of_mem h.2⟩

theorem expr_member {e : Expr} {n : String} : W.expr (.member e n) ↔ W.expr e := by
  rw [expr, Expr.bodies, expr]

theorem expr_function : W.expr (.function ps b) ↔ W.block b := by
  rw [expr, Expr.bodies, blocks_singleton]

theorem expr_closure : W.expr (.closure ps b) ↔ W.block b := by
  rw [expr, Expr.bodies, blocks_singleton]

theorem expr_of_bodiesIn {e : Option Expr} (h : W.blocks (bodiesIn Expr.bodies e)) :
    ∀ x ∈ e, W.expr x := by
  rintro x hx
  rw [Option.mem_def] at hx
  subst hx
  exact h

end Stock

namespace Store

/-- At least as many identities are given out. -/
structure SizeLe (s s' : Store) : Prop where
  objects : s.objects.size ≤ s'.objects.size
  cells : s.cells.size ≤ s'.cells.size
  tables : s.tables.size ≤ s'.tables.size

variable {s s' : Store} {t : TableId}

theorem SizeLe.refl (s : Store) : s.SizeLe s := ⟨Nat.le_refl _, Nat.le_refl _, Nat.le_refl _⟩

theorem SizeLe.trans {s'' : Store} (h : s.SizeLe s') (h' : s'.SizeLe s'') : s.SizeLe s'' :=
  ⟨Nat.le_trans h.objects h'.objects, Nat.le_trans h.cells h'.cells,
    Nat.le_trans h.tables h'.tables⟩

theorem HasObject.mono {o : ObjectId} (h : s.HasObject o) (hle : s.SizeLe s') : s'.HasObject o :=
  Nat.lt_of_lt_of_le h hle.objects

theorem HasCell.mono {c : CellId} (h : s.HasCell c) (hle : s.SizeLe s') : s'.HasCell c :=
  Nat.lt_of_lt_of_le h hle.cells

theorem HasTable.mono (h : s.HasTable t) (hle : s.SizeLe s') : s'.HasTable t := by
  obtain ⟨i, rfl, hi⟩ := h
  exact ⟨i, rfl, Nat.lt_of_lt_of_le hi hle.tables⟩

theorem Holds.mono (h : s.Holds t) (hle : s.SizeLe s') : s'.Holds t := by
  cases t with
  | free i => exact Nat.lt_of_lt_of_le h hle.tables
  | part o p => exact HasObject.mono h hle

end Store

structure Activation.Fits (s : Store) (a : Activation) : Prop where
  owner : s.HasObject a.owner
  scopes : ∀ t ∈ a.scopes, s.HasTable t
  home : s.HasTable a.home

structure Code.Fits (W : Stock) (s : Store) (c : Code) : Prop where
  body : W.body c.body
  home : ∀ t ∈ c.home, s.HasTable t

structure PropertyPlan.Fits (W : Stock) (s : Store) (p : PropertyPlan) : Prop where
  getter : ∀ c ∈ p.getter, Code.Fits W s c
  setter : ∀ c ∈ p.setter, Code.Fits W s c

structure Blueprint.Fits (W : Stock) (s : Store) (b : Blueprint) : Prop where
  base : ∀ c ∈ b.base, s.HasObject c
  operators : ∀ c ∈ b.operators, Code.Fits W s c
  methods : ∀ c ∈ b.methods, Code.Fits W s c
  properties : ∀ p ∈ b.properties, PropertyPlan.Fits W s p
  vals : ∀ f ∈ b.vals, ∀ e ∈ f.value, W.expr e
  vars : ∀ f ∈ b.vars, ∀ e ∈ f.value, W.expr e
  home : ∀ t ∈ b.home, s.HasTable t

structure ModuleParts.Fits (s : Store) (m : ModuleParts) : Prop where
  hidden : s.HasTable m.hidden
  shown : s.HasTable m.shown

def Kind.Fits (W : Stock) (s : Store) : Kind → Prop
  | .ofClass b => b.Fits W s
  | .method owner code => s.HasObject owner ∧ code.Fits W s
  | .function code => code.Fits W s
  | .closure code captured => code.Fits W s ∧ captured.Fits s
  | .ofModule m => m.Fits s
  | .moduleAlias target m => s.HasObject target ∧ m.Fits s
  | _ => True

def Cell.Fits (s : Store) : Cell → Prop
  | .var v | .const v => s.HasObject v
  | .computed getter setter => s.HasObject getter ∧ ∀ f ∈ setter, s.HasObject f
  | .view c => s.HasCell c

structure Object.Fits (W : Stock) (s : Store) (o : Object) : Prop where
  kind : o.kind.Fits W s
  below : ∀ x ∈ o.below, s.HasObject x
  face : ∀ x ∈ o.face, s.HasObject x
  type : ∀ x ∈ o.type, s.HasObject x
  bound : ∀ p, ∀ b ∈ o.bindings p, s.HasCell b.2

/-- A table with nothing to go on to. -/
structure Table.Fits (s : Store) (t : Table) : Prop where
  bound : ∀ b ∈ t.bindings, s.HasCell b.2
  outer : t.outer = []

section Mono

variable {W : Stock} {s s' : Store} (hle : s.SizeLe s')

include hle

theorem Activation.Fits.mono {a : Activation} (h : a.Fits s) : a.Fits s' :=
  ⟨h.owner.mono hle, fun t ht => (h.scopes t ht).mono hle, h.home.mono hle⟩

theorem Code.Fits.mono {c : Code} (h : c.Fits W s) : c.Fits W s' :=
  ⟨h.body, fun t ht => (h.home t ht).mono hle⟩

theorem PropertyPlan.Fits.mono {p : PropertyPlan} (h : p.Fits W s) : p.Fits W s' :=
  ⟨fun c hc => (h.getter c hc).mono hle, fun c hc => (h.setter c hc).mono hle⟩

theorem Blueprint.Fits.mono {b : Blueprint} (h : b.Fits W s) : b.Fits W s' where
  base c hc := (h.base c hc).mono hle
  operators c hc := (h.operators c hc).mono hle
  methods c hc := (h.methods c hc).mono hle
  properties p hp := (h.properties p hp).mono hle
  vals := h.vals
  vars := h.vars
  home t ht := (h.home t ht).mono hle

theorem ModuleParts.Fits.mono {m : ModuleParts} (h : m.Fits s) : m.Fits s' :=
  ⟨h.hidden.mono hle, h.shown.mono hle⟩

theorem Kind.Fits.mono {k : Kind} (h : k.Fits W s) : k.Fits W s' := by
  cases k with
  | ofClass b => exact Blueprint.Fits.mono hle h
  | method owner code => exact ⟨h.1.mono hle, h.2.mono hle⟩
  | function code => exact Code.Fits.mono hle h
  | closure code captured => exact ⟨h.1.mono hle, h.2.mono hle⟩
  | ofModule m => exact ModuleParts.Fits.mono hle h
  | moduleAlias target m => exact ⟨h.1.mono hle, h.2.mono hle⟩
  | _ => trivial

theorem Cell.Fits.mono {c : Cell} (h : c.Fits s) : c.Fits s' := by
  cases c with
  | var v => exact Store.HasObject.mono h hle
  | const v => exact Store.HasObject.mono h hle
  | computed getter setter => exact ⟨h.1.mono hle, fun f hf => (h.2 f hf).mono hle⟩
  | view c => exact Store.HasCell.mono h hle

theorem Object.Fits.mono {o : Object} (h : o.Fits W s) : o.Fits W s' where
  kind := h.kind.mono hle
  below x hx := (h.below x hx).mono hle
  face x hx := (h.face x hx).mono hle
  type x hx := (h.type x hx).mono hle
  bound p b hb := (h.bound p b hb).mono hle

theorem Table.Fits.mono {t : Table} (h : t.Fits s) : t.Fits s' :=
  ⟨fun b hb => (h.bound b hb).mono hle, h.outer⟩

end Mono

theorem Table.fits_empty (s : Store) : Table.empty.Fits s :=
  ⟨fun b hb => by simp [Table.empty] at hb, rfl⟩

end ObjectLang
