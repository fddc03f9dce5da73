import ObjectLang.Machine.Basic
import ObjectLang.Proofs.Store.Effect

/-!
Stores that differ in which identities were given out.
Where one run has made more things than another before the two go on alike, everything that is made
from then on has its identity moved by a fixed distance, and all that was there before has the same
one. What is read in such stores is the same up to the move, and they are changed alike.
-/
namespace ObjectLang

/-- Numbers from `start` on are moved up by `width`. -/
structure Gap where
  start : Nat
  width : Nat

namespace Gap

def move (g : Gap) (i : Nat) : Nat := if i < g.start then i else i + g.width

variable (g : Gap) {i j : Nat}

theorem move_of_lt (h : i < g.start) : g.move i = i := if_pos h

theorem move_of_le (h : g.start ≤ i) : g.move i = i + g.width := if_neg (by omega)

@[simp] theorem move_inj : g.move i = g.move j ↔ i = j := by
  unfold move
  split <;> split <;> omega

end Gap

/-- A move of identities. The first object stays where it is. -/
structure Shift where
  objects : Gap
  cells : Gap
  tables : Gap
  first : 0 < objects.start

/-- Data in which identities can be moved. -/
class Movable (α : Type) where
  move : Shift → α → α

export Movable (move)

section Instances

variable {α β : Type} [Movable α] [Movable β]

instance : Movable ObjectId := ⟨fun ρ o => ⟨ρ.objects.move o.index⟩⟩

instance : Movable CellId := ⟨fun ρ c => ⟨ρ.cells.move c.index⟩⟩

instance : Movable TableId where
  move ρ
    | .free i => .free (ρ.tables.move i)
    | .part o p => .part (move ρ o) p

instance : Movable (Option α) := ⟨fun ρ a => a.map (move ρ)⟩

instance : Movable (List α) := ⟨fun ρ l => l.map (move ρ)⟩

instance : Movable (α × β) := ⟨fun ρ p => (move ρ p.1, move ρ p.2)⟩

instance {ε : Type} : Movable (Except ε α) := ⟨fun ρ r => r.map (move ρ)⟩

instance : Movable String := ⟨fun _ s => s⟩

instance : Movable Bool := ⟨fun _ b => b⟩

instance : Movable Unit := ⟨fun _ u => u⟩

instance : Movable Nat := ⟨fun _ n => n⟩

instance : Movable Int64 := ⟨fun _ n => n⟩

instance : Movable Float := ⟨fun _ x => x⟩

instance : Movable Activation where
  move ρ a := ⟨move ρ a.owner, a.name, move ρ a.scopes, move ρ a.home, a.notes⟩

instance : Movable Code := ⟨fun ρ c => ⟨c.name, c.params, c.body, move ρ c.home⟩⟩

instance : Movable PropertyPlan := ⟨fun ρ p => ⟨p.name, move ρ p.getter, move ρ p.setter⟩⟩

instance : Movable Blueprint where
  move ρ b := ⟨b.name, move ρ b.base, move ρ b.operators, move ρ b.methods, move ρ b.properties,
    b.vals, b.vars, move ρ b.home⟩

instance : Movable ModuleParts := ⟨fun ρ m => ⟨m.name, move ρ m.hidden, move ρ m.shown⟩⟩

instance : Movable Kind where
  move ρ
    | .ofClass b => .ofClass (move ρ b)
    | .method owner code => .method (move ρ owner) (move ρ code)
    | .function code => .function (move ρ code)
    | .closure code captured => .closure (move ρ code) (move ρ captured)
    | .ofModule m => .ofModule (move ρ m)
    | .moduleAlias target m => .moduleAlias (move ρ target) (move ρ m)
    | other => other

instance : Movable Object where
  move ρ o := ⟨move ρ o.kind, move ρ o.below, move ρ o.face, move ρ o.type, move ρ o.fields,
    move ρ o.operators, move ρ o.members⟩

instance : Movable Cell where
  move ρ
    | .var v => .var (move ρ v)
    | .const v => .const (move ρ v)
    | .computed getter setter => .computed (move ρ getter) (move ρ setter)
    | .view c => .view (move ρ c)

instance : Movable Table := ⟨fun ρ t => ⟨move ρ t.bindings, move ρ t.outer, t.rule⟩⟩

instance : Movable Roots where
  move ρ r := ⟨move ρ r.root, move ρ r.type, move ρ r.method, move ρ r.class_, move ρ r.module_⟩

end Instances

section Moves

variable {α β : Type} [Movable α] [Movable β] (ρ : Shift)

@[simp] theorem move_inj_object {o o' : ObjectId} : move ρ o = move ρ o' ↔ o = o' := by
  obtain ⟨i⟩ := o
  obtain ⟨j⟩ := o'
  simp [move]

@[simp] theorem move_inj_table {t t' : TableId} : move ρ t = move ρ t' ↔ t = t' := by
  cases t with
  | free i => cases t' <;> simp [move]
  | part o p =>
    cases t' with
    | free j => simp [move]
    | part o' p' =>
      change TableId.part (move ρ o) p = .part (move ρ o') p' ↔ _
      rw [TableId.part.injEq, move_inj_object, TableId.part.injEq]

@[simp] theorem move_some (a : α) : move ρ (some a) = some (move ρ a) := rfl

@[simp] theorem move_none : move ρ (none : Option α) = none := rfl

@[simp] theorem move_cons (a : α) (l : List α) : move ρ (a :: l) = move ρ a :: move ρ l := rfl

theorem move_append (l l' : List α) : move ρ (l ++ l') = move ρ l ++ move ρ l' := List.map_append

theorem move_strings (l : List String) : move ρ l = l := List.map_id l

theorem move_vacant : move ρ Object.vacant = .vacant := rfl

theorem move_empty : move ρ Table.empty = .empty := rfl

/-- The cell that an unused identity stands for holds the first object. -/
theorem move_const_first : move ρ (Cell.const ⟨0⟩) = .const ⟨0⟩ :=
  congrArg (fun i => Cell.const ⟨i⟩) (ρ.objects.move_of_lt ρ.first)

theorem move_inj_option {a b : Option ObjectId} : move ρ a = move ρ b ↔ a = b := by
  cases a <;> cases b <;> simp

theorem definitionName_move (k : Kind) : (move ρ k).definitionName = k.definitionName := by
  cases k <;> rfl

theorem isType_move (k : Kind) : (move ρ k).isType = k.isType := by
  cases k <;> rfl

end Moves

/-- The second heap holds what the first one does, moved, beside other things in the gap. -/
structure Heap.Shifted {α : Type} (g : Gap) (f : α → α) (h h' : Heap α) : Prop where
  get? : ∀ i, h'.get? (g.move i) = (h.get? i).map f
  start : g.start ≤ h.size
  size : h'.size = h.size + g.width

namespace Heap.Shifted

variable {α : Type} {g : Gap} {f : α → α} {h h' : Heap α}

variable (hs : h.Shifted g f h')
include hs

theorem getD {d : α} (hd : f d = d) (i : Nat) : h'.getD (g.move i) d = f (h.getD i d) := by
  rw [Heap.getD, hs.get?, Heap.getD]
  cases h.get? i with
  | none => exact hd.symm
  | some a => rfl

/-- The next number is moved to the next number. -/
theorem next : g.move h.size = h'.size :=
  (g.move_of_le hs.start).trans hs.size.symm

theorem push (x : α) : (h.push x).Shifted g f (h'.push (f x)) where
  get? i := by
    rw [get?_push, get?_push, ← hs.next]
    by_cases hi : i = h.size
    · rw [if_pos hi, if_pos (by rw [hi])]
      rfl
    · rw [if_neg hi, if_neg (fun heq => hi (g.move_inj.mp heq)), hs.get?]
  start := Nat.le_trans hs.start (Nat.le_succ _)
  size := by
    rw [size_push, size_push, hs.size]
    omega

theorem modify (i : Nat) {u u' : α → α} (hu : ∀ x, f (u x) = u' (f x)) :
    (h.modify i u).Shifted g f (h'.modify (g.move i) u') where
  get? j := by
    rw [get?_modify, get?_modify, hs.get?]
    by_cases hij : i = j
    · rw [if_pos hij, if_pos (by rw [hij]), Option.map_map, Option.map_map]
      exact congrArg (fun k => (h.get? j).map k) (funext fun x => (hu x).symm)
    · rw [if_neg hij, if_neg (fun heq => hij (g.move_inj.mp heq))]
  start := hs.start
  size := hs.size

end Heap.Shifted

namespace Store

/-- The second store holds what the first one does, moved, beside other things in the gaps. -/
structure Shifted (ρ : Shift) (s s' : Store) : Prop where
  objects : s.objects.Shifted ρ.objects (move ρ) s'.objects
  cells : s.cells.Shifted ρ.cells (move ρ) s'.cells
  tables : s.tables.Shifted ρ.tables (move ρ) s'.tables

namespace Shifted

variable {ρ : Shift} {s s' : Store} (h : s.Shifted ρ s')

include h

section Reads

theorem object (o : ObjectId) : s'.object (move ρ o) = move ρ (s.object o) :=
  h.objects.getD (move_vacant ρ) o.index

theorem cell (c : CellId) : s'.cell (move ρ c) = move ρ (s.cell c) :=
  h.cells.getD (move_const_first ρ) c.index

theorem table (i : Nat) : s'.table (ρ.tables.move i) = move ρ (s.table i) :=
  h.tables.getD (move_empty ρ) i

theorem kind (o : ObjectId) : s'.kind (move ρ o) = move ρ (s.kind o) :=
  congrArg Object.kind (h.object o)

theorem type (o : ObjectId) : s'.type (move ρ o) = move ρ (s.type o) :=
  congrArg Object.type (h.object o)

theorem below (o : ObjectId) : (s'.object (move ρ o)).below = move ρ (s.object o).below :=
  congrArg Object.below (h.object o)

theorem base (o : ObjectId) : s'.base (move ρ o) = move ρ (s.base o) := by
  rw [Store.base, h.below, Store.base]
  exact List.head?_map

theorem levels (o : ObjectId) : s'.levels (move ρ o) = move ρ (s.levels o) :=
  congrArg (move ρ o :: ·) (h.below o)

theorem face (o : ObjectId) : s'.face (move ρ o) = move ρ (s.face o) := by
  rw [Store.face, h.object, Store.face]
  exact (Option.getD_map ..)

theorem bindings (t : TableId) : s'.bindings (move ρ t) = move ρ (s.bindings t) := by
  cases t with
  | free i => exact congrArg Table.bindings (h.table i)
  | part o p =>
    refine (congrArg (Object.bindings · p) (h.object o)).trans ?_
    cases p <;> rfl

/-- The order of bindings goes by their names. -/
theorem sorted (t : TableId) : (s'.bindings (move ρ t)).sorted = move ρ (s.bindings t).sorted := by
  have hinsert (b : String × CellId) (bs : Bindings) : insertBy (·.1 < ·.1) (move ρ b) (move ρ bs) =
      move ρ (insertBy (·.1 < ·.1) b bs) := by
    induction bs with
    | nil => rfl
    | cons b' rest ih =>
      change (if decide (b'.1 < b.1) then move ρ b' :: insertBy _ (move ρ b) (move ρ rest) else
        move ρ b :: move ρ b' :: move ρ rest) = move ρ (insertBy _ b (b' :: rest))
      rw [insertBy]
      split
      · exact congrArg (move ρ b' :: ·) ih
      · rfl
  rw [h.bindings]
  generalize s.bindings t = bs
  induction bs with
  | nil => rfl
  | cons b rest ih => exact (congrArg (insertBy _ (move ρ b)) ih).trans (hinsert b _)

theorem outer (t : TableId) : s'.outer (move ρ t) = move ρ (s.outer t) := by
  have hbelow (o : ObjectId) (p : Part) : (s'.object (move ρ o)).below.map (TableId.part · p) =
      move ρ ((s.object o).below.map (TableId.part · p)) := by
    rw [h.below]
    simp [move]
  cases t with
  | free i => exact congrArg Table.outer (h.table i)
  | part o p =>
    cases p with
    | fields => rfl
    | operators => exact hbelow o _
    | members => exact hbelow o _

theorem rule (t : TableId) : s'.rule (move ρ t) = s.rule t := by
  cases t with
  | free i =>
    have htable := congrArg Table.rule (h.table i)
    exact htable
  | part o p => cases p <;> rfl

theorem local? (t : TableId) (name : String) :
    s'.local? (move ρ t) name = move ρ (s.local? t name) := by
  rw [Store.local?, h.bindings, Store.local?]
  induction s.bindings t with
  | nil => rfl
  | cons b rest ih =>
    rw [move_cons, List.lookup_cons, List.lookup_cons]
    change (match name == b.1 with | true => some (move ρ b.2) | false => _) = _
    cases name == b.1 with
    | true => rfl
    | false => exact ih

theorem lookup (t : TableId) (name : String) :
    s'.lookup (move ρ t) name = move ρ (s.lookup t name) := by
  rw [Store.lookup, h.outer, Store.lookup, ← move_cons]
  refine List.findSome?_map.trans ?_
  refine Eq.trans ?_ List.map_findSome?.symm
  exact congrArg (List.findSome? · _) (funext fun t => h.local? t name)

theorem lookupIn (ts : List TableId) (name : String) :
    s'.lookupIn (move ρ ts) name = move ρ (s.lookupIn ts name) := by
  refine List.findSome?_map.trans ?_
  refine Eq.trans ?_ List.map_findSome?.symm
  exact congrArg (List.findSome? · _) (funext fun t => h.lookup t name)

theorem refusal? (t : TableId) (name : String) :
    s'.refusal? (move ρ t) name = s.refusal? t name := by
  have hsome : (move ρ (s.local? t name)).isSome = (s.local? t name).isSome := by
    cases s.local? t name <;> rfl
  rw [Store.refusal?, h.rule, h.local?, hsome, Store.refusal?]

theorem typeName (o : ObjectId) : s'.typeName (move ρ o) = s.typeName o := by
  rw [Store.typeName, h.face, h.type, Store.typeName]
  cases s.type (s.face o) with
  | none => rfl
  | some t => rw [move_some, Option.bind_some, h.kind, definitionName_move, Option.bind_some]

theorem levelText (o : ObjectId) : s'.levelText (move ρ o) = s.levelText o := by
  rw [Store.levelText, h.kind, h.typeName, Store.levelText]
  cases s.kind o <;> rfl

theorem describe (o : ObjectId) : s'.describe (move ρ o) = s.describe o := by
  rw [Store.describe, h.face, h.kind, h.levelText, Store.describe]
  cases s.kind (s.face o) with
  | moduleAlias target parts =>
    change s'.levelText (s'.face (move ρ target)) = s.levelText (s.face target)
    rw [h.face, h.levelText]
  | _ => rfl

theorem asInteger (o : ObjectId) : s'.asInteger (move ρ o) = s.asInteger o := by
  rw [Store.asInteger, h.face, h.kind, Store.asInteger]
  cases s.kind (s.face o) <;> rfl

theorem asString (o : ObjectId) : s'.asString (move ρ o) = s.asString o := by
  rw [Store.asString, h.face, h.kind, Store.asString]
  cases s.kind (s.face o) <;> rfl

theorem asBoolean (o : ObjectId) : s'.asBoolean (move ρ o) = s.asBoolean o := by
  rw [Store.asBoolean, h.face, h.kind, Store.asBoolean]
  cases s.kind (s.face o) <;> rfl

theorem isModule (o : ObjectId) : s'.isModule (move ρ o) = s.isModule o := by
  rw [Store.isModule, h.kind, Store.isModule]
  cases s.kind o <;> rfl

theorem publicScope (o : ObjectId) : s'.publicScope (move ρ o) = move ρ (s.publicScope o) := by
  rw [Store.publicScope, h.kind, Store.publicScope]
  cases s.kind o <;> rfl

theorem privateScope (o : ObjectId) : s'.privateScope (move ρ o) = move ρ (s.privateScope o) := by
  rw [Store.privateScope, h.kind, Store.privateScope]
  cases s.kind o <;> rfl

theorem memberScope (accessor target : ObjectId) :
    s'.memberScope (move ρ accessor) (move ρ target) = move ρ (s.memberScope accessor target) := by
  simp only [Store.memberScope, h.face, h.isModule, move_inj_object, h.privateScope, h.publicScope]
  split
  · rfl
  · split <;> rfl

theorem isa (o type : ObjectId) : s'.isa (move ρ o) (move ρ type) = s.isa o type := by
  have hany : (s'.levels (s'.face (move ρ o))).any (fun l => s'.type l = some (move ρ type)) =
      (s.levels (s.face o)).any (fun l => s.type l = some type) := by
    rw [h.face, h.levels]
    refine List.any_map.trans (congrArg (List.any _) (funext fun l => ?_))
    simp only [Function.comp_apply, h.type, ← move_some, move_inj_option]
  rw [Store.isa, h.kind, isType_move, hany, h.describe, Store.isa]

end Reads

section Writes

theorem modifyObject (o : ObjectId) {u u' : Object → Object}
    (hu : ∀ x, move ρ (u x) = u' (move ρ x)) :
    (s.modifyObject o u).Shifted ρ (s'.modifyObject (move ρ o) u') :=
  ⟨h.objects.modify o.index hu, h.cells, h.tables⟩

theorem setType (o type : ObjectId) :
    (s.setType o type).Shifted ρ (s'.setType (move ρ o) (move ρ type)) :=
  h.modifyObject o fun _ => rfl

theorem setFace (o face : ObjectId) :
    (s.setFace o face).Shifted ρ (s'.setFace (move ρ o) (move ρ face)) :=
  h.modifyObject o fun _ => rfl

theorem wearFace (o : ObjectId) : (s.wearFace o).Shifted ρ (s'.wearFace (move ρ o)) := by
  rw [Store.wearFace, Store.wearFace, h.levels]
  generalize s.levels o = ls
  induction ls generalizing s s' with
  | nil => exact h
  | cons l rest ih => exact ih (h.setFace l o)

theorem bind (t : TableId) (name : String) (c : CellId) :
    (s.bind t name c).Shifted ρ (s'.bind (move ρ t) name (move ρ c)) := by
  cases t with
  | free i => exact ⟨h.objects, h.cells, h.tables.modify i fun _ => rfl⟩
  | part o p => exact h.modifyObject o fun x => by cases p <;> rfl

theorem assign (c : CellId) (v : ObjectId) :
    (s.assign c v).Shifted ρ (s'.assign (move ρ c) (move ρ v)) :=
  ⟨h.objects, h.cells.modify c.index fun x => by cases x <;> rfl, h.tables⟩

end Writes

end Shifted

/-- What was made is the same up to the move, and so are the stores. -/
structure MadeAlike {α : Type} [Movable α] (ρ : Shift) (r r' : α × Store) : Prop where
  value : r'.1 = move ρ r.1
  store : r.2.Shifted ρ r'.2

theorem copyOf?_move (ρ : Shift) (home : TableId) (scopes copies : List TableId) :
    copyOf? (move ρ home) (move ρ scopes) (move ρ copies) =
      move ρ (copyOf? home scopes copies) := by
  have hzip : (move ρ scopes).zip (move ρ copies) = move ρ (scopes.zip copies) := List.zip_map
  rw [copyOf?, hzip, copyOf?]
  change (List.map _ _).reverse.lookup _ = _
  rw [← List.map_reverse]
  induction (scopes.zip copies).reverse with
  | nil => rfl
  | cons p rest ih =>
    have hkey : (move ρ home == move ρ p.1) = (home == p.1) := by
      rw [Bool.eq_iff_iff, beq_iff_eq, beq_iff_eq, move_inj_table]
    rw [List.map_cons, List.lookup_cons, List.lookup_cons]
    change (match move ρ home == move ρ p.1 with | true => some (move ρ p.2) | false => _) = _
    rw [hkey]
    cases home == p.1 with
    | true => rfl
    | false => exact ih

theorem captureActivation_some {s : Store} {a : Activation} {home : TableId}
    (hhome : copyOf? a.home a.scopes (s.captureTables a.scopes).1 = some home) :
    s.captureActivation a = ({ a with scopes := (s.captureTables a.scopes).1, home := home },
      (s.captureTables a.scopes).2) := by
  simp only [captureActivation, hhome]

theorem captureActivation_none {s : Store} {a : Activation}
    (hhome : copyOf? a.home a.scopes (s.captureTables a.scopes).1 = none) :
    s.captureActivation a = ({ a with
        scopes := (s.captureTables a.scopes).1
        home := ((s.captureTables a.scopes).2.captureTable a.home).1 },
      ((s.captureTables a.scopes).2.captureTable a.home).2) := by
  simp only [captureActivation, hhome]

namespace Shifted

variable {ρ : Shift} {s s' : Store} (h : s.Shifted ρ s')

include h

theorem newObject (base : Option ObjectId) (kind : Kind) :
    MadeAlike ρ (s.newObject base kind) (s'.newObject (move ρ base) (move ρ kind)) := by
  refine ⟨congrArg ObjectId.mk h.objects.next.symm, ?_, h.cells, h.tables⟩
  cases base with
  | none => exact h.objects.push (.make kind [])
  | some b =>
    have hlevels := h.levels b
    change s.objects.push (.make kind (s.levels b)) |>.Shifted _ _
      (s'.objects.push (.make (move ρ kind) (s'.levels (move ρ b))))
    rw [hlevels]
    exact h.objects.push _

theorem newCell (c : Cell) : MadeAlike ρ (s.newCell c) (s'.newCell (move ρ c)) :=
  ⟨congrArg CellId.mk h.cells.next.symm, h.objects, h.cells.push c, h.tables⟩

theorem newTable {t t' : Table} (ht : t' = move ρ t) :
    MadeAlike ρ (s.newTable t) (s'.newTable t') := by
  subst ht
  exact ⟨congrArg TableId.free h.tables.next.symm, h.objects, h.cells, h.tables.push t⟩

theorem captureCell (c : CellId) : MadeAlike ρ (s.captureCell c) (s'.captureCell (move ρ c)) := by
  rw [Store.captureCell, Store.captureCell, h.cell]
  cases s.cell c with
  | var v => exact h.newCell (.var v)
  | _ => exact ⟨rfl, h⟩

theorem captureBindings (b : Bindings) :
    MadeAlike ρ (s.captureBindings b) (s'.captureBindings (move ρ b)) := by
  induction b generalizing s s' with
  | nil => exact ⟨rfl, h⟩
  | cons b rest ih =>
    obtain ⟨hcopy, hstore⟩ := h.captureCell b.2
    obtain ⟨hcopies, hlast⟩ := ih hstore
    exact ⟨congr (congrArg (fun c l => (b.1, c) :: l) hcopy) hcopies, hlast⟩

theorem captureLine (ts : List TableId) :
    MadeAlike ρ (s.captureLine ts) (s'.captureLine (move ρ ts)) := by
  induction ts with
  | nil => exact ⟨rfl, h⟩
  | cons t rest ih =>
    obtain ⟨houter, hfirst⟩ := ih
    have hcopied := hfirst.captureBindings ((s.captureLine rest).2.bindings t)
    rw [← hfirst.bindings] at hcopied
    obtain ⟨hbindings, hsecond⟩ := hcopied
    have htable := congr (congr (congrArg Table.mk hbindings) houter) (hsecond.rule t)
    have hmade := hsecond.newTable (t := ⟨_, (s.captureLine rest).1, _⟩) htable
    exact ⟨congr (congrArg List.cons hmade.value) houter, hmade.store⟩

theorem captureTable (t : TableId) :
    MadeAlike ρ (s.captureTable t) (s'.captureTable (move ρ t)) := by
  obtain ⟨hcopies, hstore⟩ := h.captureLine (t :: s.outer t)
  rw [move_cons, ← h.outer] at hcopies hstore
  refine ⟨?_, hstore⟩
  change (s'.captureLine (move ρ t :: s'.outer (move ρ t))).1.headD (move ρ t) =
    move ρ ((s.captureLine (t :: s.outer t)).1.headD t)
  rw [hcopies]
  cases (s.captureLine (t :: s.outer t)).1 <;> rfl

theorem captureTables (ts : List TableId) :
    MadeAlike ρ (s.captureTables ts) (s'.captureTables (move ρ ts)) := by
  induction ts generalizing s s' with
  | nil => exact ⟨rfl, h⟩
  | cons t rest ih =>
    obtain ⟨hcopy, hstore⟩ := h.captureTable t
    obtain ⟨hcopies, hlast⟩ := ih hstore
    exact ⟨congr (congrArg List.cons hcopy) hcopies, hlast⟩

theorem captureActivation (a : Activation) :
    MadeAlike ρ (s.captureActivation a) (s'.captureActivation (move ρ a)) := by
  obtain ⟨hscopes, hstore⟩ := h.captureTables a.scopes
  have hcopy := copyOf?_move ρ a.home a.scopes (s.captureTables a.scopes).1
  rw [← hscopes] at hcopy
  cases hhome : Store.copyOf? a.home a.scopes (s.captureTables a.scopes).1 with
  | some home =>
    rw [hhome] at hcopy
    rw [captureActivation_some hhome, captureActivation_some (a := move ρ a) hcopy]
    exact ⟨congrArg (Activation.mk (move ρ a.owner) a.name · (move ρ home) a.notes) hscopes, hstore⟩
  | none =>
    rw [hhome] at hcopy
    rw [captureActivation_none hhome, captureActivation_none (a := move ρ a) hcopy]
    obtain ⟨hhome, hlast⟩ := hstore.captureTable a.home
    exact ⟨congr (congrArg (Activation.mk (move ρ a.owner) a.name · · a.notes) hscopes) hhome,
      hlast⟩

end Shifted

end Store

end ObjectLang
