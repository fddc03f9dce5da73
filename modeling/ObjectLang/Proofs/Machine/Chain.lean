import ObjectLang.Eval.Depth
import ObjectLang.Proofs.Machine.Path
import ObjectLang.Proofs.Moments

/-!
The chain of levels that an instance of a class is made of.
Each class of the lineage gives one level. What the blueprint of a class lists is what its level
binds, in the same order, and the fields are filled one by one, each seeing those before it. Between
the moment a field is initialised and the moment it is bound, its initialiser is evaluated once.
-/
namespace ObjectLang

def Store.fieldNames (s : Store) (l : ObjectId) : List String :=
  (s.bindings (.part l .fields)).reverse.map (·.1)

/-- A step in the filling of a level, and the fields that the level has by then: the first value of
a field is about to be found, or the field is about to be bound. -/
inductive FieldStep where
  | begins (f : FieldPlan) (seen : List String)
  | ends (name : String) (seen : List String)

def Moment.fieldStep? (l : ObjectId) (p : Moment) : Option FieldStep :=
  match p.deed with
  | .initialises o f => if o = l then some (.begins f (p.machine.store.fieldNames l)) else none
  | .fills o name _ => if o = l then some (.ends name (p.machine.store.fieldNames l)) else none
  | _ => none

def fieldSteps (l : ObjectId) (t : List Moment) : List FieldStep := t.filterMap (·.fieldStep? l)

/-- Fields filled one by one, each initialised and bound while exactly those before it are there. -/
def eachAfter : List String → List FieldPlan → List FieldStep
  | _, [] => []
  | seen, f :: rest => .begins f seen :: .ends f.name seen :: eachAfter (seen ++ [f.name]) rest

theorem eachAfter_append (seen : List String) (fs gs : List FieldPlan) :
    eachAfter seen (fs ++ gs) = eachAfter seen fs ++ eachAfter (seen ++ fs.map (·.name)) gs := by
  induction fs generalizing seen with
  | nil => simp [eachAfter]
  | cons f rest ih => simp [eachAfter, ih]

theorem fieldSteps_append (l : ObjectId) (t u : List Moment) :
    fieldSteps l (t ++ u) = fieldSteps l t ++ fieldSteps l u :=
  List.filterMap_append

theorem fieldSteps_nil (l : ObjectId) : fieldSteps l [] = [] := rfl

/-- Evaluating the expression from `m` on gives `v`, and passes the moments `t`. -/
def Evaluates (e : Expr) (m : Machine) (t : List Moment) (v : ObjectId) : Prop :=
  ∃ d m', (Inner.ofDepth d).evaluate e m = .done v m' ∧ t = ((Inner.ofDepth d).evaluate e).moments m

/-- How the first value of a field of the level `l` is found from `m` on, through the given moments.
An initialiser is evaluated in an activation of its own, which belongs to the level, and no other
code runs. Without one, the value is `nothing`. -/
inductive FirstValue (b : Blueprint) (l : ObjectId) (f : FieldPlan) (m : Machine) :
    List Moment → ObjectId → Prop where
  | nothing {c : CellId} {t : List Moment} {v : ObjectId} (hf : f.value = none)
      (hc : m.store.local? m.builtins "nothing" = some c) (hv : m.store.cell c = .const v)
      (ht : ∀ p ∈ t, p.deed.runsCode = false) : FirstValue b l f m t v
  | evaluated {e : Expr} {a : Activation} {m₁ : Machine} {t u : List Moment} {v : ObjectId}
      (hf : f.value = some e) (ht : ∀ p ∈ t, p.deed.runsCode = false)
      (hstack : m₁.stack = a :: m.stack) (howner : a.owner = l)
      (hname : a.name = b.name ++ "." ++ f.name) (he : Evaluates e m₁ u v) :
      FirstValue b l f m (t ++ u) v

/-- A field is initialised, and then bound to the cell `c`, which holds the value just found. -/
def FieldRun (b : Blueprint) (l : ObjectId) (cell : ObjectId → Cell) (f : FieldPlan)
    (t : List Moment) (c : CellId) (v : ObjectId) : Prop :=
  ∃ m u m', t = ⟨.initialises l f, m⟩ :: (u ++ [⟨.fills l f.name c, m'⟩]) ∧
    FirstValue b l f m u v ∧ m'.store.cell c = cell v

/-- Among the moments `t` the field was filled, and it has kept its cell. What a constant field was
given is there for ever. -/
def FieldFilled (s : Store) (t : List Moment) (b : Blueprint) (l : ObjectId)
    (cell : ObjectId → Cell) (f : FieldPlan) : Prop :=
  ∃ u c v, u <:+: t ∧ FieldRun b l cell f u c v ∧ s.local? (.part l .fields) f.name = some c ∧
    (cell v = .const v → s.cell c = .const v)

theorem FieldFilled.mono {W : Stock} {s s' : Store} {t u : List Moment} {b : Blueprint}
    {l : ObjectId} {cell : ObjectId → Cell} {f : FieldPlan} (h : FieldFilled s t b l cell f)
    (hw : s.Wellformed W) (hg : s.Grows s') (ht : t <:+: u) : FieldFilled s' u b l cell f := by
  obtain ⟨r, c, v, hr, hrun, hc, hv⟩ := h
  exact ⟨r, c, v, hr.trans ht, hrun, hg.bound _ _ _ hc,
    fun hcell => hg.const (hw.hasCell_of_local? hc) (hv hcell)⟩

/-- The fields of a level are filled one by one, the constant ones before the variable ones. -/
structure LevelFilled (s : Store) (t : List Moment) (b : Blueprint) (l : ObjectId) : Prop where
  steps : fieldSteps l t = eachAfter [] (b.vals ++ b.vars)
  vals : ∀ f ∈ b.vals, FieldFilled s t b l .const f
  vars : ∀ f ∈ b.vars, FieldFilled s t b l .var f

theorem LevelFilled.mono {W : Stock} {s s' : Store} {t u : List Moment} {b : Blueprint}
    {l : ObjectId} (h : LevelFilled s t b l) (hw : s.Wellformed W) (hg : s.Grows s')
    (ht : t <:+: u) (hsteps : fieldSteps l u = fieldSteps l t) : LevelFilled s' u b l :=
  ⟨hsteps.trans h.steps, fun f hf => (h.vals f hf).mono hw hg ht,
    fun f hf => (h.vars f hf).mono hw hg ht⟩

/-- A level `l` that the class `c` gives to the instance `face`, over the levels `below`. It is new
since the store had `n` objects, and `t` are the moments since then. -/
structure ClassLevel (s : Store) (n : Nat) (face : ObjectId) (t : List Moment) (c l : ObjectId)
    (below : List ObjectId) : Prop where
  has : s.HasObject l
  new : n ≤ l.index
  below : (s.object l).below = below
  type : (s.object l).type = some c
  face : (s.object l).face = some face
  filled : ∃ b, s.kind c = .ofClass b ∧ (∀ p, s.Lists l p (b.entries p)) ∧ LevelFilled s t b l

/-- Levels for the classes of a lineage, one for each. -/
inductive Chain (s : Store) (n : Nat) (face : ObjectId) (t : List Moment) :
    List ObjectId → List ObjectId → Prop where
  | nil : Chain s n face t [] []
  | cons {c l : ObjectId} {cs ls : List ObjectId} (h : ClassLevel s n face t c l ls)
      (rest : Chain s n face t cs ls) : Chain s n face t (c :: cs) (l :: ls)

namespace Chain

variable {W : Stock} {s s' : Store} {n k : Nat} {o o' : ObjectId} {t u : List Moment}
  {cs ls : List ObjectId}

section

variable (h : Chain s n o t cs ls)
include h

/-- A chain stays what it is while its levels are left alone, but for a face that all of them take.
-/
theorem carry (hw : s.Wellformed W) (hg : s.Grows s') (hk : k ≤ n) (ht : t <:+: u)
    (htype : ∀ l ∈ ls, (s'.object l).type = (s.object l).type)
    (hface : ∀ l ∈ ls, (s.object l).face = some o → (s'.object l).face = some o')
    (hbind : ∀ l ∈ ls, ∀ p, (s'.object l).bindings p = (s.object l).bindings p)
    (htrace : ∀ l ∈ ls, fieldSteps l u = fieldSteps l t) : Chain s' k o' u cs ls := by
  induction h with
  | nil => exact .nil
  | @cons c l cs ls h _ ih =>
    have hmem : l ∈ l :: ls := List.mem_cons_self ..
    obtain ⟨b, hb, hlists, hfilled⟩ := h.filled
    refine .cons ⟨h.has.mono hg.sizes, Nat.le_trans hk h.new, ?_, ?_, hface l hmem h.face,
      b, hg.kind_of_ne hb (by simp), ?_, hfilled.mono hw hg ht (htrace l hmem)⟩ ?_
    · rw [hg.below l h.has, h.below]
    · rw [htype l hmem, h.type]
    · exact fun p => (hlists p).mono hw hg (hbind l hmem p)
    · exact ih (fun l hl => htype l (List.mem_cons_of_mem _ hl))
        (fun l hl => hface l (List.mem_cons_of_mem _ hl))
        (fun l hl => hbind l (List.mem_cons_of_mem _ hl))
        (fun l hl => htrace l (List.mem_cons_of_mem _ hl))

theorem has : ∀ l ∈ ls, s.HasObject l := by
  induction h with
  | nil => simp
  | cons h _ ih =>
    intro l hl
    rcases List.mem_cons.mp hl with rfl | hl
    · exact h.has
    · exact ih l hl

theorem new : ∀ l ∈ ls, n ≤ l.index := by
  induction h with
  | nil => simp
  | cons h _ ih =>
    intro l hl
    rcases List.mem_cons.mp hl with rfl | hl
    · exact h.new
    · exact ih l hl

theorem faces : ∀ l ∈ ls, (s.object l).face = some o := by
  induction h with
  | nil => simp
  | cons h _ ih =>
    intro l hl
    rcases List.mem_cons.mp hl with rfl | hl
    · exact h.face
    · exact ih l hl

end

/-- The top level is that of the class at the head of the lineage. -/
theorem top {c : ObjectId} (h : Chain s n o t cs (s.levels o)) (hc : s'.Lineage c cs) :
    ClassLevel s n o t c o (s.object o).below := by
  obtain ⟨rest, rfl⟩ : ∃ rest, cs = c :: rest := by cases hc <;> exact ⟨_, rfl⟩
  rw [Store.levels] at h
  cases h with
  | cons hlevel _ => exact hlevel

/-- Moments before the levels were there do not count. -/
theorem prepend (h : Chain s n o u cs ls) (hw : s.Wellformed W) (hk : k ≤ n)
    (ht : ∀ l : ObjectId, n ≤ l.index → fieldSteps l t = []) :
    Chain s k o (t ++ u) cs ls := by
  refine h.carry hw (.refl s) hk (List.suffix_append t u).isInfix (fun _ _ => rfl)
    (fun _ _ hface => hface) (fun _ _ _ => rfl) ?_
  intro l hl
  rw [fieldSteps_append, ht l (h.new l hl), List.nil_append]

end Chain

/-- The object `o` is an instance of the class `c` that holds `kind` on its top level. All its
levels are new since the store had `n` objects, and `t` are the moments since then. -/
structure Built (s : Store) (n : Nat) (c o : ObjectId) (kind : Kind) (t : List Moment) : Prop where
  chain : ∃ cs, s.Lineage c cs ∧ Chain s n o t cs (s.levels o)
  kind : s.kind o = kind
  plain : ∀ l ∈ (s.object o).below, s.kind l = .plain

namespace Built

variable {W : Stock} {s s' : Store} {n k : Nat} {c o : ObjectId} {kind : Kind} {t u : List Moment}

section

variable (h : Built s n c o kind t)
include h

theorem has : s.HasObject o := by
  obtain ⟨cs, -, hchain⟩ := h.chain
  exact hchain.has o (List.mem_cons_self ..)

theorem new : ∀ l ∈ s.levels o, n ≤ l.index := by
  obtain ⟨cs, -, hchain⟩ := h.chain
  exact hchain.new

theorem top : ClassLevel s n o t c o (s.object o).below := by
  obtain ⟨cs, hlineage, hchain⟩ := h.chain
  exact hchain.top hlineage

theorem type_eq : s.type o = some c := h.top.type

theorem typed : s.type o ≠ none := by
  rw [h.type_eq]
  simp

theorem noClass (hkind : Store.NoClass kind) : ∀ l ∈ s.levels o, Store.NoClass (s.kind l) := by
  intro l hl
  rcases List.mem_cons.mp hl with rfl | hl
  · rw [h.kind]
    exact hkind
  · rw [h.plain l hl]
    simp [Store.NoClass]

end

theorem prepend (h : Built s n c o kind u) (hw : s.Wellformed W) (hk : k ≤ n)
    (ht : ∀ l : ObjectId, n ≤ l.index → fieldSteps l t = []) :
    Built s k c o kind (t ++ u) := by
  obtain ⟨cs, hlineage, hchain⟩ := h.chain
  exact ⟨⟨cs, hlineage, hchain.prepend hw hk ht⟩, h.kind, h.plain⟩

end Built

namespace Path

variable {W : Stock} {n : Nat} {m m' : Machine} {t : List Moment} {l : ObjectId}

/-- No field of an older object is filled. -/
theorem fieldSteps_old (h : Path W n m t m') (hl : l.index < n) : fieldSteps l t = [] := by
  induction h with
  | stay m => rfl
  | move _ _ ih => exact ih
  | @pass p _ t h _ ih =>
    rw [fieldSteps, List.filterMap_cons, ← fieldSteps, ih]
    obtain ⟨deed, m⟩ := p
    cases deed with
    | initialises o f =>
      have hne : o ≠ l := by
        rintro rfl
        exact Nat.lt_irrefl _ (Nat.lt_of_lt_of_le hl h.1)
      simp [Moment.fieldStep?, hne]
    | fills o name c =>
      have hne : o ≠ l := by
        rintro rfl
        exact Nat.lt_irrefl _ (Nat.lt_of_lt_of_le hl h.1)
      simp [Moment.fieldStep?, hne]
    | _ => rfl

open Machine in
/-- No field of an object that is not there yet is filled. -/
theorem fieldSteps_unborn (h : Path W n m t m') (hm : Ready W n m)
    (hl : ¬ m'.store.HasObject l) : fieldSteps l t = [] := by
  induction h with
  | stay m => rfl
  | move h _ ih =>
    exact ih ((h.onward hm).ready hm) hl
  | @pass p m' t h rest ih =>
    have hfirst := Moment.onward h hm.sound
    have hgrows := hfirst.trans (rest.onward (hfirst.ready hm))
    rw [fieldSteps, List.filterMap_cons, ← fieldSteps, ih (hfirst.ready hm) hl]
    obtain ⟨deed, m⟩ := p
    cases deed with
    | initialises o f =>
      have hne : o ≠ l := by
        rintro rfl
        exact hl (h.2.mono hgrows.grows.sizes)
      simp [Moment.fieldStep?, hne]
    | fills o name c =>
      have hne : o ≠ l := by
        rintro rfl
        exact hl (h.2.1.mono hgrows.grows.sizes)
      simp [Moment.fieldStep?, hne]
    | _ => rfl

end Path

end ObjectLang
