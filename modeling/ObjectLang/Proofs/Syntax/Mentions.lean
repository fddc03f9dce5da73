import ObjectLang.Name
import ObjectLang.Syntax.Tree

/-!
Statements inside statements, and what a program mentions.
A body is the block of a function, closure, method, accessor or module. The statements of a program
are those of its block, those of the bodies in them, and so on. It mentions the names that it writes
down, each with the rule of the tables that it is meant for, and for each property which accessors
it has. Everything is listed, at every depth.
-/
namespace ObjectLang

mutual

/-- The bodies that stand in an expression and in no other body of it. -/
def Expr.bodies : Expr → List Block
  | .integer _ | .float _ | .string _ | .name _ => []
  | .binary _ lhs rhs => lhs.bodies ++ rhs.bodies
  | .call callee args => callee.bodies ++ Expr.bodiesOfAll args
  | .index target args => target.bodies ++ Expr.bodiesOfAll args
  | .member target _ => target.bodies
  | .function _ body | .closure _ body => [body]

def Expr.bodiesOfAll : List Expr → List Block
  | [] => []
  | e :: rest => e.bodies ++ Expr.bodiesOfAll rest

end

theorem Expr.bodies_subset_bodiesOfAll {e : Expr} {es : List Expr} (h : e ∈ es) :
    e.bodies ⊆ Expr.bodiesOfAll es := by
  induction es with
  | nil => simp at h
  | cons head rest ih =>
    intro b hb
    rw [bodiesOfAll, List.mem_append]
    rcases List.mem_cons.mp h with rfl | hrest
    · exact Or.inl hb
    · exact Or.inr (ih hrest hb)

def Accessor.bodies : Accessor → List Block
  | .mk _ body => [body]

def bodiesIn {α : Type} (bodies : α → List Block) : Option α → List Block
  | some a => bodies a
  | none => []

def Member.bodies : Member → List Block
  | .val _ value => value.bodies
  | .var _ value => bodiesIn Expr.bodies value
  | .method _ _ body | .operator _ _ body => [body]
  | .property _ getter setter =>
    bodiesIn Accessor.bodies getter ++ bodiesIn Accessor.bodies setter

def Command.bodies : Command → List Block
  | .val _ value | .assign _ _ value | .evaluate value => value.bodies
  | .var _ value | .giveBack value => bodiesIn Expr.bodies value
  | .assignMember target _ _ value => target.bodies ++ value.bodies
  | .function _ _ body | .declareModule _ body => [body]
  | .declareClass _ superclass members =>
    bodiesIn Expr.bodies superclass ++ members.flatMap Member.bodies
  | .importModule _ _ | .exportNames _ => []

/-- A statement of a block, or of a body in it at any depth. -/
inductive Statement.Occurs (s : Statement) : Block → Prop where
  | here {b : Block} (h : s ∈ b) : Occurs s b
  | inside {b body : Block} {outer : Statement} (ho : outer ∈ b)
      (hb : body ∈ outer.command.bodies) (h : Occurs s body) : Occurs s b

inductive Mention where
  | name (rule : NameRule) (text : String)
  | property (getter setter : Bool)
deriving DecidableEq

def Mention.Proper : Mention → Prop
  | .name rule text => rule.accepts text = true
  | .property getter setter => setter = true → getter = true

namespace Mention

def symbols (names : List String) : List Mention := names.map (.name .symbol)

def Each (P : Mention → Prop) (xs : List Mention) : Prop := ∀ x ∈ xs, P x

section Each

variable {P Q : Mention → Prop} {x : Mention} {xs ys : List Mention}

@[simp] theorem each_nil : Each P [] := nofun

@[simp] theorem each_cons : Each P (x :: xs) ↔ P x ∧ Each P xs := List.forall_mem_cons

@[simp] theorem each_append : Each P (xs ++ ys) ↔ Each P xs ∧ Each P ys := List.forall_mem_append

theorem Each.mono (h : Each P xs) (hPQ : ∀ {x}, P x → Q x) : Each Q xs := fun x hx => hPQ (h x hx)

end Each

end Mention

def Binding.mentions : Binding → List Mention
  | .everything => []
  | .only names => Mention.symbols names
  | .under name => [.name .symbol name]

mutual

@[simp] def Expr.mentions : Expr → List Mention
  | .integer _ | .float _ | .string _ => []
  | .name name => [.name .symbol name]
  | .binary _ lhs rhs => lhs.mentions ++ rhs.mentions
  | .call callee args => callee.mentions ++ Expr.mentionsAll args
  | .index target args => target.mentions ++ Expr.mentionsAll args
  | .member target name => .name .symbol name :: target.mentions
  | .function params body | .closure params body =>
    Mention.symbols params ++ Statement.mentionsAll body

@[simp] def Expr.mentionsAll : List Expr → List Mention
  | [] => []
  | e :: rest => e.mentions ++ Expr.mentionsAll rest

@[simp] def Expr.mentionsIn : Option Expr → List Mention
  | none => []
  | some e => e.mentions

@[simp] def Statement.mentions : Statement → List Mention
  | .mk command _ _ => command.mentions

@[simp] def Statement.mentionsAll : List Statement → List Mention
  | [] => []
  | s :: rest => s.mentions ++ Statement.mentionsAll rest

@[simp] def Command.mentions : Command → List Mention
  | .val name value => .name .symbol name :: value.mentions
  | .var name value => .name .symbol name :: Expr.mentionsIn value
  | .assign name _ value => .name .symbol name :: value.mentions
  | .assignMember target name _ value =>
    .name .symbol name :: (target.mentions ++ value.mentions)
  | .giveBack value => Expr.mentionsIn value
  | .function name params body =>
    .name .symbol name :: (Mention.symbols params ++ Statement.mentionsAll body)
  | .declareClass name superclass members =>
    .name .symbol name :: (Expr.mentionsIn superclass ++ Member.mentionsAll members)
  | .declareModule name body => .name .dotted name :: Statement.mentionsAll body
  | .importModule name binding => .name .dotted name :: binding.mentions
  | .exportNames names => Mention.symbols names
  | .evaluate value => value.mentions

@[simp] def Member.mentions : Member → List Mention
  | .val name value => .name .symbol name :: value.mentions
  | .var name value => .name .symbol name :: Expr.mentionsIn value
  | .method name params body =>
    .name .symbol name :: (Mention.symbols params ++ Statement.mentionsAll body)
  | .operator symbol params body =>
    .name .operator symbol :: (Mention.symbols params ++ Statement.mentionsAll body)
  | .property name getter setter =>
    .name .symbol name :: .property getter.isSome setter.isSome ::
      (Accessor.mentionsIn getter ++ Accessor.mentionsIn setter)

@[simp] def Member.mentionsAll : List Member → List Mention
  | [] => []
  | m :: rest => m.mentions ++ Member.mentionsAll rest

@[simp] def Accessor.mentions : Accessor → List Mention
  | .mk params body => Mention.symbols params ++ Statement.mentionsAll body

@[simp] def Accessor.mentionsIn : Option Accessor → List Mention
  | none => []
  | some a => a.mentions

end

section Bodies

theorem subset_append_of_mem {bs bs' : List Block} {xs xs' : List Mention} {b : Block}
    (hb : b ∈ bs ++ bs') (h : b ∈ bs → Statement.mentionsAll b ⊆ xs)
    (h' : b ∈ bs' → Statement.mentionsAll b ⊆ xs') : Statement.mentionsAll b ⊆ xs ++ xs' := by
  rcases List.mem_append.mp hb with hb | hb
  · exact List.subset_append_of_subset_left _ (h hb)
  · exact List.subset_append_of_subset_right _ (h' hb)

mutual

/-- What a body mentions is mentioned by the expression that it stands in. -/
theorem Expr.mentions_bodies : (e : Expr) → ∀ b ∈ e.bodies, Statement.mentionsAll b ⊆ e.mentions
  | .integer _, _, hb | .float _, _, hb | .string _, _, hb | .name _, _, hb => nomatch hb
  | .binary _ lhs rhs, b, hb => by
    rw [mentions]
    exact subset_append_of_mem hb (lhs.mentions_bodies b) (rhs.mentions_bodies b)
  | .call callee args, b, hb | .index callee args, b, hb => by
    rw [mentions]
    exact subset_append_of_mem hb (callee.mentions_bodies b) (mentions_bodiesOfAll args b)
  | .member target _, b, hb => List.subset_cons_of_subset _ (target.mentions_bodies b hb)
  | .function params body, b, hb | .closure params body, b, hb => by
    rw [mentions, List.mem_singleton.mp hb]
    exact List.subset_append_right _ _

theorem Expr.mentions_bodiesOfAll : (es : List Expr) → ∀ b ∈ Expr.bodiesOfAll es,
    Statement.mentionsAll b ⊆ Expr.mentionsAll es
  | [], _, hb => nomatch hb
  | e :: rest, b, hb => by
    rw [mentionsAll]
    exact subset_append_of_mem hb (e.mentions_bodies b) (mentions_bodiesOfAll rest b)

end

variable {b : Block} {s : Statement} {m : Member}

theorem Expr.mentions_bodiesIn {e : Option Expr} (hb : b ∈ bodiesIn Expr.bodies e) :
    Statement.mentionsAll b ⊆ Expr.mentionsIn e := by
  cases e with
  | none => cases hb
  | some e => exact e.mentions_bodies b hb

theorem Accessor.mentions_bodiesIn {a : Option Accessor} (hb : b ∈ bodiesIn Accessor.bodies a) :
    Statement.mentionsAll b ⊆ Accessor.mentionsIn a := by
  cases a with
  | none => cases hb
  | some a =>
    obtain ⟨params, body⟩ := a
    rw [List.mem_singleton.mp hb]
    exact List.subset_append_right _ _

theorem Member.mentions_bodies (hb : b ∈ m.bodies) :
    Statement.mentionsAll b ⊆ m.mentions := by
  cases m with
  | val name value => exact List.subset_cons_of_subset _ (value.mentions_bodies b hb)
  | var name value => exact List.subset_cons_of_subset _ (Expr.mentions_bodiesIn hb)
  | method name params body | operator name params body =>
    rw [List.mem_singleton.mp hb]
    exact List.subset_cons_of_subset _ (List.subset_append_right _ _)
  | property name getter setter =>
    refine List.subset_cons_of_subset _ (List.subset_cons_of_subset _ ?_)
    exact subset_append_of_mem hb Accessor.mentions_bodiesIn Accessor.mentions_bodiesIn

theorem Member.mentions_subset {ms : List Member} (hm : m ∈ ms) :
    m.mentions ⊆ Member.mentionsAll ms := by
  induction ms with
  | nil => cases hm
  | cons head rest ih =>
    rw [mentionsAll]
    rcases List.mem_cons.mp hm with rfl | hm
    · exact List.subset_append_left _ _
    · exact List.subset_append_of_subset_right _ (ih hm)

theorem Command.mentions_bodies {c : Command} (hb : b ∈ c.bodies) :
    Statement.mentionsAll b ⊆ c.mentions := by
  cases c with
  | val name value | assign name op value =>
    exact List.subset_cons_of_subset _ (value.mentions_bodies b hb)
  | var name value => exact List.subset_cons_of_subset _ (Expr.mentions_bodiesIn hb)
  | assignMember target name op value =>
    apply List.subset_cons_of_subset
    exact subset_append_of_mem hb (target.mentions_bodies b) (value.mentions_bodies b)
  | giveBack value => exact Expr.mentions_bodiesIn hb
  | function name params body =>
    rw [List.mem_singleton.mp hb]
    exact List.subset_cons_of_subset _ (List.subset_append_right _ _)
  | declareClass name superclass members =>
    apply List.subset_cons_of_subset
    refine subset_append_of_mem hb Expr.mentions_bodiesIn fun hb => ?_
    obtain ⟨m, hm, hb⟩ := List.mem_flatMap.mp hb
    exact List.Subset.trans (Member.mentions_bodies hb) (Member.mentions_subset hm)
  | declareModule name body =>
    rw [List.mem_singleton.mp hb]
    exact List.subset_cons_self _ _
  | importModule name binding | exportNames names => cases hb
  | evaluate value => exact value.mentions_bodies b hb

theorem Statement.mentions_subset (hs : s ∈ b) :
    s.command.mentions ⊆ Statement.mentionsAll b := by
  induction b with
  | nil => cases hs
  | cons head rest ih =>
    obtain ⟨command, span, text⟩ := head
    rw [mentionsAll]
    rcases List.mem_cons.mp hs with rfl | hs
    · exact List.subset_append_left _ _
    · exact List.subset_append_of_subset_right _ (ih hs)

/-- What a statement mentions is mentioned by the program that it stands in, however deep. -/
theorem Statement.Occurs.mentions (hs : s.Occurs b) :
    s.command.mentions ⊆ Statement.mentionsAll b := by
  induction hs with
  | here hs => exact Statement.mentions_subset hs
  | inside ho hb _ ih =>
    exact List.Subset.trans ih
      (List.Subset.trans (Command.mentions_bodies hb) (Statement.mentions_subset ho))

end Bodies

end ObjectLang
