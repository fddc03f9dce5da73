import ObjectLang.Proofs.Later

/-!
Bindings are for ever.
A table that binds a name to a cell goes on binding it to that cell, a cell keeps its sort, and only
a variable ever holds something else. Whoever tries to write anything but a variable, or to bind a
name again, is told so and has changed nothing.
-/
namespace ObjectLang

open Machine Routine

inductive Cell.Sort where
  | variable
  | constant
  | computed
  | settable
  | view
deriving DecidableEq

/-- A computed cell with a setter is of another sort than one without. -/
def Cell.sort : Cell → Cell.Sort
  | .var _ => .variable
  | .const _ => .constant
  | .computed _ none => .computed
  | .computed _ (some _) => .settable
  | .view _ => .view

/-- Nothing can be written to a cell of this sort. -/
def Cell.Sort.Fixed : Cell.Sort → Prop
  | .constant | .computed | .view => True
  | _ => False

/-- The work ends in a fault of the group and leaves the machine as it is. -/
def Outcome.Refuses {α : Type} (x : Outcome α) (m : Machine) (g : Group) : Prop :=
  ∃ f, x = .failed (.fault f) m ∧ f.group = g

namespace Store

variable {s s' : Store} {c : CellId}

theorem Grows.sort_eq (h : s.Grows s') (hc : s.HasCell c) :
    (s'.cell c).sort = (s.cell c).sort := by
  rcases h.content c hc with heq | ⟨v, v', hv, hv'⟩
  · rw [heq]
  · rw [hv, hv']
    rfl

theorem Grows.cell_eq (h : s.Grows s') (hc : s.HasCell c) (hsort : (s.cell c).sort ≠ .variable) :
    s'.cell c = s.cell c := by
  rcases h.content c hc with heq | ⟨v, v', hv, -⟩
  · exact heq
  · rw [hv] at hsort
    exact absurd rfl hsort

end Store

namespace Eval

variable {k : Inner} {m m' : Machine} {c : CellId} {n : String} {t : TableId} {v : ObjectId}
  {a : Activation}

theorem getIn_const (hc : m.store.local? t n = some c) (hv : m.store.cell c = .const v) :
    getIn k t n m = .done v m := by
  simp only [getIn, bind_run, see, quiet, Store.lookup_of_local? hc, found, pure_run]
  simp only [readVia, readCell, bind_run, touch, see, quiet, hv, pure_run]

theorem writeVia_fixed (hc : (m.store.cell c).sort.Fixed) (via : Route)
    (receiver : Option ObjectId) (v : ObjectId) :
    (writeVia k via c receiver v m).Refuses m .constantValue := by
  refine ⟨.constant, ?_, rfl⟩
  simp only [writeVia, writeCell, bind_run, touch, see, quiet]
  cases hcell : m.store.cell c with
  | const w => rfl
  | view x => rfl
  | var w =>
    rw [hcell] at hc
    exact hc.elim
  | computed getter setter =>
    cases setter with
    | none => rfl
    | some setter =>
      rw [hcell] at hc
      exact hc.elim

theorem setIn_fixed (hc : m.store.local? t n = some c) (hfixed : (m.store.cell c).sort.Fixed)
    (v : ObjectId) :
    (setIn k t n v m).Refuses m .constantValue := by
  have hrun : setIn k t n v m = writeVia k (.table t n) c none v m := by
    simp only [setIn, bind_run, see, quiet, Store.lookup_of_local? hc, found, pure_run]
  rw [hrun]
  exact writeVia_fixed hfixed _ none v

theorem setName_fixed (hc : m.lookup n = some c) (hfixed : (m.store.cell c).sort.Fixed)
    (v : ObjectId) : (setName k n v m).Refuses m .constantValue := by
  have hrun : setName k n v m = writeVia k (.name n) c none v m := by
    simp only [setName, bind_run, Routine.read, quiet, hc, found, pure_run]
  rw [hrun]
  exact writeVia_fixed hfixed _ none v

theorem define_taken (hm : m.store.Tidy) (hc : m.store.local? t n = some c) (c' : CellId) :
    (define t n c' m).Refuses m .symbolContent := by
  refine ⟨.nameTaken n, ?_, rfl⟩
  simp [define, quiet, Store.refusal?, hm.named t n c (.of_local? hc), hc]

theorem declare_taken (hm : m.store.Tidy) (ha : m.stack[0]? = some a) (ht : a.scopes.head? = some t)
    (hc : m.store.local? t n = some c) (c' : CellId) :
    (declare n c' m).Refuses m .symbolContent := by
  obtain ⟨rest, hscopes⟩ := List.head?_eq_some_iff.mp ht
  have hrun : declare n c' m = define t n c' m := by
    simp only [declare, bind_run, peek, quiet, ha, defineLocal, hscopes]
  rw [hrun]
  exact define_taken hm hc c'

theorem declareModule_taken (hc : m.store.local? m.modules n = some c) (body : Block) :
    (declareModule k n body m).Refuses m .symbol := by
  refine ⟨.moduleTaken n, ?_, rfl⟩
  have hrefuse : refuseTaken n m = .failed (.fault (.moduleTaken n)) m := by
    simp [refuseTaken, bind_run, Routine.read, see, quiet, hc, fail]
  rw [declareModule, bind_run, hrefuse]

/-- What is declared as a constant is bound to a constant cell. -/
theorem defineConst_done (ht : m.store.Holds t) (hrun : defineConst t n v m = .done () m') :
    ∃ c, m'.store.local? t n = some c ∧ m'.store.cell c = .const v := by
  have hdefine : define t n ⟨m.store.cells.size⟩
      { m with store := (m.store.newCell (.const v)).2 } = .done () m' := hrun
  simp only [define, quiet] at hdefine
  split at hdefine
  · cases hdefine
    refine ⟨⟨m.store.cells.size⟩, ?_, ?_⟩
    · rw [Store.local?_bind _ (ht.mono (m.store.newCell_grows _).sizes), if_pos ⟨rfl, rfl⟩]
    · rw [Store.cell_bind, Store.cell_newCell_self]
  · cases hdefine

/-- So is what a statement declares as one, in the innermost scope of the running activation. -/
theorem declareValue_done {flow : Flow} (hstack : ∀ a ∈ m.stack, ∀ t ∈ a.scopes, m.store.Holds t)
    (hrun : declareValue n .const v m = .done flow m') :
    ∃ a t c, m.stack.head? = some a ∧ a.scopes.head? = some t ∧ m'.store.local? t n = some c ∧
      m'.store.cell c = .const v := by
  cases hhead : m.stack with
  | nil => simp [declareValue, declare, bind_run, newCell, make, peek, quiet, hhead] at hrun
  | cons a rest =>
    cases hscopes : a.scopes with
    | nil =>
      simp [declareValue, declare, bind_run, newCell, make, peek, quiet, hhead, defineLocal,
        hscopes, fail] at hrun
    | cons t ts =>
      have hholds := hstack a (hhead ▸ List.mem_cons_self ..) t (hscopes ▸ List.mem_cons_self ..)
      have hsame : declareValue n .const v m =
          (defineConst t n v >>= fun _ => pure (.next v)) m := by
        simp only [declareValue, declare, bind_run, newCell, make, peek, quiet, hhead,
          List.getElem?_cons_zero, defineLocal, hscopes, defineConst]
      rw [hsame, bind_run] at hrun
      cases hdefine : defineConst t n v m with
      | done u m₁ =>
        rw [hdefine] at hrun
        cases hrun
        obtain ⟨c, hc, hv⟩ := defineConst_done hholds hdefine
        exact ⟨a, t, c, rfl, by rw [hscopes]; rfl, hc, hv⟩
      | failed e m₁ =>
        rw [hdefine] at hrun
        cases hrun
      | exhausted =>
        rw [hdefine] at hrun
        cases hrun

end Eval

namespace Machine

variable {m m' : Machine} {t : List Moment}

def moduleSource : Source := .ofText "module a \x7b \x7d"

theorem module_registered :
    ∃ m, (Eval.runSource (.ofDepth 24) moduleSource initial).machine? = some m ∧
    ∃ c, m.store.local? m.modules "a" = some c := by decide +kernel

/-- Whatever a run does after it came to `m`, every table binds what it bound to the same cell,
every cell is of the same sort, and all cells but variables hold what they held. So a constant is
read as the same value through its table for ever; what is declared as a constant is one; an
assignment to anything but a variable or a property with a setter is refused, by whichever way it is
found; and so is a second binding of a name in its table, and a second module of a registered name.
Whoever is refused has changed nothing. -/
theorem bindings_permanent (h : Later m t m') :
    (∀ x n c, m.store.local? x n = some c → m'.store.local? x n = some c) ∧
    (∀ c, m.store.HasCell c → (m'.store.cell c).sort = (m.store.cell c).sort ∧
      ((m.store.cell c).sort ≠ .variable → m'.store.cell c = m.store.cell c)) ∧
    ∀ d,
      (∀ x n c v, m.store.local? x n = some c → m.store.cell c = .const v →
        Eval.getIn (.ofDepth d) x n m' = .done v m') ∧
      (∀ x n v m'', m'.store.Holds x → defineConst x n v m' = .done () m'' →
        ∃ c, m''.store.local? x n = some c ∧ m''.store.cell c = .const v) ∧
      (∀ n v flow m'', Eval.declareValue n .const v m' = .done flow m'' →
        ∃ a x c, m'.stack.head? = some a ∧ a.scopes.head? = some x ∧
          m''.store.local? x n = some c ∧ m''.store.cell c = .const v) ∧
      (∀ c, m.store.HasCell c → (m.store.cell c).sort.Fixed → ∀ n v,
        (∀ x, m'.store.local? x n = some c →
          (Eval.setIn (.ofDepth d) x n v m').Refuses m' .constantValue) ∧
        (m'.lookup n = some c → (Eval.setName (.ofDepth d) n v m').Refuses m' .constantValue) ∧
        ∀ a target, m'.stack[0]? = some a →
          m'.store.lookupIn (m'.store.memberScope a.owner target) n = some c →
          (Eval.setMember (.ofDepth d) target n v m').Refuses m' .constantValue) ∧
      (∀ x n c, m.store.local? x n = some c → ∀ c',
        (define x n c' m').Refuses m' .symbolContent ∧
        ∀ a, m'.stack[0]? = some a → a.scopes.head? = some x →
          (declare n c' m').Refuses m' .symbolContent) ∧
      ∀ n c, m.store.local? m.modules n = some c → ∀ body,
        (Eval.declareModule (.ofDepth d) n body m').Refuses m' .symbol := by
  have hon := h.onward
  have htidy := h.reachable.tidy
  have hhas : ∀ {x n c}, m.store.local? x n = some c → m.store.HasCell c := fun hc =>
    h.passage.1.store.hasCell_of_local? hc
  refine ⟨hon.grows.bound, fun c hc => ?_, fun d => ⟨?_, ?_, ?_, ?_, ?_, ?_⟩⟩
  · exact ⟨hon.grows.sort_eq hc, hon.grows.cell_eq hc⟩
  · intro x n c v hc hv
    exact Eval.getIn_const (hon.grows.bound x n c hc) (hon.grows.const (hhas hc) hv)
  · exact fun x n v m'' hx hrun => Eval.defineConst_done hx hrun
  · intro n v flow m'' hrun
    exact Eval.declareValue_done (fun a ha x hx => ((hon.sound.stack a ha).scopes x hx).holds) hrun
  · intro c hc hfixed n v
    have hfixed' : (m'.store.cell c).sort.Fixed := by rwa [hon.grows.sort_eq hc]
    refine ⟨fun x hx => Eval.setIn_fixed hx hfixed' v, fun hx => Eval.setName_fixed hx hfixed' v,
      fun a target ha hx => ?_⟩
    simp only [Eval.setMember, Eval.memberCell, bind_run, peek, see, quiet, ha, hx, Eval.found,
      pure_run]
    exact Eval.writeVia_fixed hfixed' _ _ v
  · intro x n c hc c'
    have hc' := hon.grows.bound x n c hc
    exact ⟨Eval.define_taken htidy hc' c', fun a ha hx => Eval.declare_taken htidy ha hx hc' c'⟩
  · intro n c hc body
    refine Eval.declareModule_taken (c := c) ?_ body
    rw [hon.modules]
    exact hon.grows.bound _ n c hc

/-- A constant of one program, once the next one has failed: it is bound as it was, and can be
neither assigned nor declared again. -/
theorem bindings_permanent_counter : ∃ m t m' main i b, Later m t m' ∧
    m.store.local? main "b" = some i ∧ m.store.cell i = .const b ∧
    m'.store.local? main "b" = some i ∧ m'.store.cell i = .const b ∧
    (∀ v, (Eval.setName (.ofDepth 16) "b" v m').Refuses m' .constantValue) ∧
    ∀ c, (declare "b" c m').Refuses m' .symbolContent := by
  obtain ⟨m, hend, a, ha, i, hi, b, hb, -, -, -, -, -, -, -, -, e, m', hrun, -⟩ := counter_pried
  have hafter : After [counterSource] m := .next .start 16 counterSource hend
  have hlater := Later.ended (.next (.stay hafter) 16 pryingSource (by rw [hrun]; rfl))
  obtain ⟨owner, main, hinitial⟩ := initial_atMain
  rw [(hafter.atMain hinitial).stack] at ha
  cases ha
  have hstack := (After.next hafter 16 pryingSource (by rw [hrun]; rfl)).atMain hinitial |>.stack
  obtain ⟨hbound, hcells, hrest⟩ := bindings_permanent hlater
  obtain ⟨-, -, -, hwrites, hdeclares, -⟩ := hrest 16
  have hhas : m.store.HasCell i := hlater.passage.1.store.hasCell_of_local? hi
  have hi' := hbound _ _ _ hi
  refine ⟨m, _, m', main, i, b, hlater, hi, hb, hi', ?_, fun v => ?_, fun c => ?_⟩
  · rw [(hcells i hhas).2 (by rw [hb]; simp [Cell.sort]), hb]
  · refine (hwrites i hhas (by rw [hb]; trivial) "b" v).2.1 ?_
    simp [Machine.lookup, hstack, Store.lookupIn, Store.lookup_of_local? hi']
  · exact (hdeclares _ _ _ hi c).2 _ (by rw [hstack]; rfl) rfl

/-- A module is not declared twice, but it is not refused as a name that is bound already. -/
theorem module_refused_otherwise : ∃ m c, After [moduleSource] m ∧
    m.store.local? m.modules "a" = some c ∧
    ¬ (Eval.declareModule (.ofDepth 24) "a" [] m).Refuses m .symbolContent := by
  obtain ⟨m, hend, c, hc⟩ := module_registered
  refine ⟨m, c, .next .start 24 moduleSource hend, hc, ?_⟩
  rintro ⟨f, hf, hgroup⟩
  obtain ⟨f', hf', hgroup'⟩ := Eval.declareModule_taken (k := .ofDepth 24) hc []
  obtain ⟨heq, -⟩ := Outcome.failed.inj (hf.symm.trans hf')
  cases heq
  rw [hgroup] at hgroup'
  cases hgroup'

end Machine

end ObjectLang
