import ObjectLang.Decimal.Numeral
import ObjectLang.Syntax.Grammar
import ObjectLang.Syntax.Tree

/-!
From the nodes of a match to the tree of a program.
Two things are refused that the grammar lets through: assigning to what is no place, and an integer
beyond 64 bits. The other causes stand for nodes of a shape that the grammar does not make.
-/
namespace ObjectLang.Syntax

open Peg

inductive Misfit where
  | noPlace
  | integerRange
  | incomplete
  | strayMember
  | bodyless
  | strayExpression (r : Rule)
  | floatLiteral
deriving DecidableEq

namespace Misfit

def message : Misfit → String
  | noPlace => "invalid assignment target"
  | integerRange => "integer literal out of range"
  | incomplete => "unexpected end of syntax node"
  | strayMember => "unexpected class member"
  | bodyless => "property accessor is missing a body"
  | strayExpression r => "unexpected " ++ r.label ++ " in expression"
  | floatLiteral => "invalid float literal"

end Misfit

abbrev Built := Except (Misfit × Span)

def refuse {α : Type} (m : Misfit) (span : Span) : Built α := .error (m, span)

def unescapeChar : Char → Char
  | 'n' => '\n'
  | 't' => '\t'
  | 'r' => '\r'
  | '0' => Char.ofNat 0
  | c => c

def unescape : List Char → List Char
  | [] => []
  | ['\\'] => ['\\']
  | '\\' :: c :: cs => unescapeChar c :: unescape cs
  | c :: cs => c :: unescape cs

/-- The nodes that are no words. -/
def meaning (ns : List (Node Rule)) : List (Node Rule) := ns.filter fun n => !n.rule.isWord

def names (n : Node Rule) : List String := (meaning n.children).map Node.text

def integer (span : Span) (digits : List Char) : Built Expr :=
  let value := Decimal.ofDigits digits
  if value < Nat.pow 2 63 then .ok (.integer (Int64.ofNat value)) else refuse .integerRange span

def float (span : Span) (cs : List Char) : Built Expr :=
  match Decimal.ofLiteral? cs with
  | some x => .ok (.float x)
  | none => refuse .floatLiteral span

/-- A string literal from its children; the first holds the text between the quotes. -/
def stringLiteral (children : List (Node Rule)) : Expr :=
  .string (String.ofList (unescape ((children.head?.map Node.chars).getD [])))

def arith : String → Arith
  | "+" => .add
  | "-" => .sub
  | "*" => .mul
  | _ => .div

def update : String → Option Arith
  | "+=" => some .add
  | "-=" => some .sub
  | "*=" => some .mul
  | "/=" => some .div
  | _ => none

/-- An assignment to the place that an expression denotes. -/
def assignTo (span : Span) : Expr → Built (Option Arith → Expr → Command)
  | .name n => .ok (.assign n)
  | .member t n => .ok (.assignMember t n)
  | _ => refuse .noPlace span

def aliasName (n : Node Rule) : Built Binding :=
  match meaning n.children with
  | name :: _ => .ok (.under name.text)
  | [] => refuse .incomplete n.span

def binding : List (Node Rule) → Built Binding
  | [] => .ok .everything
  | n :: _ => if n.rule = .importAlias then aliasName n else .ok (.only (names n))

def importStmt (span : Span) (children : List (Node Rule)) : Built Command :=
  match meaning children with
  | name :: rest => do return .importModule name.text (← binding rest)
  | [] => refuse .incomplete span

/-- The expression that a node of a rule stands for, given what its children are built to. -/
def exprOf (r : Rule) (start : Cursor) (stop : Position) (children : List (Node Rule))
    (joined linked : Unit → Built Expr) (lambda : Unit → Built (List String × Block)) :
    Built Expr :=
  match r with
  | .sum | .product => joined ()
  | .chain => linked ()
  | .integer => integer ⟨start.pos, stop⟩ (start.upTo stop)
  | .float => float ⟨start.pos, stop⟩ (start.upTo stop)
  | .string => .ok (stringLiteral children)
  | .ident => .ok (.name (String.ofList (start.upTo stop)))
  | .functionExpr => do
    let f ← lambda ()
    return .function f.1 f.2
  | .closureExpr => do
    let f ← lambda ()
    return .closure f.1 f.2
  | r => refuse (.strayExpression r) ⟨start.pos, stop⟩

-- Where words are passed over, a list of nodes is read from its first node that is none.
mutual

def expr : Node Rule → Built Expr
  | .mk r start stop cs =>
    exprOf r start stop cs (fun _ => operands ⟨start.pos, stop⟩ cs)
      (fun _ => links ⟨start.pos, stop⟩ cs) (fun _ => lambda ⟨start.pos, stop⟩ cs)

/-- Operands joined by operators of one rank, from the left. -/
def operands (span : Span) : List (Node Rule) → Built Expr
  | [] => refuse .incomplete span
  | first :: rest => do operations span (← expr first) rest

def operations (span : Span) (lhs : Expr) : List (Node Rule) → Built Expr
  | [] => .ok lhs
  | [_] => refuse .incomplete span
  | op :: rhs :: rest => do operations span (.binary (arith op.text) lhs (← expr rhs)) rest

def links (span : Span) : List (Node Rule) → Built Expr
  | [] => refuse .incomplete span
  | first :: rest => do linksFrom (← expr first) rest

def linksFrom (target : Expr) : List (Node Rule) → Built Expr
  | [] => .ok target
  | n :: rest => do linksFrom (← link target n) rest

def link (target : Expr) : Node Rule → Built Expr
  | .mk r start stop cs =>
    match r with
    | .call => do return .call target (← exprs cs)
    | .index => do return .index target (← exprs cs)
    | _ =>
      match cs with
      | name :: _ => .ok (.member target name.text)
      | [] => refuse .incomplete ⟨start.pos, stop⟩

def exprs : List (Node Rule) → Built (List Expr)
  | [] => .ok []
  | n :: rest => do
    let e ← expr n
    return e :: (← exprs rest)

def optional : List (Node Rule) → Built (Option Expr)
  | [] => .ok none
  | n :: rest => if n.rule.isWord then optional rest else do return some (← expr n)

def required (span : Span) : List (Node Rule) → Built Expr
  | [] => refuse .incomplete span
  | n :: rest => if n.rule.isWord then required span rest else expr n

def lambda (span : Span) : List (Node Rule) → Built (List String × Block)
  | [] => refuse .incomplete span
  | n :: rest =>
    if n.rule.isWord then lambda span rest else do return (names n, ← firstBlock span rest)

def named (span : Span) : List (Node Rule) → Built (String × List String × Block)
  | [] => refuse .incomplete span
  | n :: rest =>
    if n.rule.isWord then named span rest else do return (n.text, ← lambda span rest)

def firstBlock (span : Span) : List (Node Rule) → Built Block
  | [] => refuse .incomplete span
  | n :: rest => if n.rule.isWord then firstBlock span rest else block n

def block : Node Rule → Built Block
  | .mk _ _ _ cs => statements cs

/-- The statements among some nodes. -/
def statements : List (Node Rule) → Built Block
  | [] => .ok []
  | n :: rest =>
    if n.rule = .statement then do
      let s ← statement n
      return s :: (← statements rest)
    else statements rest

/-- A statement; its command is its first child, and its text has no white space around it. -/
def statement : Node Rule → Built Statement
  | .mk _ start stop cs => do
    let c ← firstCommand ⟨start.pos, stop⟩ cs
    return .mk c ⟨start.pos, stop⟩ (String.ofList (Text.trim (start.upTo stop)))

def firstCommand (span : Span) : List (Node Rule) → Built Command
  | [] => refuse .incomplete span
  | n :: _ => command n

def command : Node Rule → Built Command
  | .mk r start stop cs =>
    match r with
    | .valDecl => do
      let v ← valued ⟨start.pos, stop⟩ cs
      return .val v.1 v.2
    | .varDecl => do
      let v ← maybeValued ⟨start.pos, stop⟩ cs
      return .var v.1 v.2
    | .assignment => assignment ⟨start.pos, stop⟩ cs
    | .returnStmt => do return .giveBack (← optional cs)
    | .functionDecl => do
      let f ← named ⟨start.pos, stop⟩ cs
      return .function f.1 f.2.1 f.2.2
    | .classDecl => classDecl ⟨start.pos, stop⟩ cs
    | .moduleDecl => moduleDecl ⟨start.pos, stop⟩ cs
    | .importStmt => importStmt ⟨start.pos, stop⟩ cs
    | .exportStmt => .ok (.exportNames ((meaning cs).map Node.text))
    | r => do
      return .evaluate (← exprOf r start stop cs (fun _ => operands ⟨start.pos, stop⟩ cs)
        (fun _ => links ⟨start.pos, stop⟩ cs) (fun _ => lambda ⟨start.pos, stop⟩ cs))

def valued (span : Span) : List (Node Rule) → Built (String × Expr)
  | [] => refuse .incomplete span
  | n :: rest =>
    if n.rule.isWord then valued span rest else do return (n.text, ← required span rest)

def maybeValued (span : Span) : List (Node Rule) → Built (String × Option Expr)
  | [] => refuse .incomplete span
  | n :: rest =>
    if n.rule.isWord then maybeValued span rest else do return (n.text, ← optional rest)

/-- The target of an assignment is judged before what comes behind it is built. -/
def assignment (span : Span) : List (Node Rule) → Built Command
  | [] => refuse .incomplete span
  | n :: rest =>
    if n.rule.isWord then assignment span rest
    else do
      let target ← expr n
      assigned span (← assignTo n.span target) rest

def assigned (span : Span) (assign : Option Arith → Expr → Command) :
    List (Node Rule) → Built Command
  | [] => refuse .incomplete span
  | n :: rest =>
    if n.rule.isWord then assigned span assign rest
    else do return assign (update n.text) (← required span rest)

def moduleDecl (span : Span) : List (Node Rule) → Built Command
  | [] => refuse .incomplete span
  | n :: rest =>
    if n.rule.isWord then moduleDecl span rest
    else do return .declareModule n.text (← firstBlock span rest)

def classDecl (span : Span) : List (Node Rule) → Built Command
  | [] => refuse .incomplete span
  | n :: rest => if n.rule.isWord then classDecl span rest else classParts n.text none [] rest

/-- The superclass and the members of a class, given those that have come so far. -/
def classParts (name : String) (base : Option Expr) (before : List Member) :
    List (Node Rule) → Built Command
  | [] => .ok (.declareClass name base before)
  | n :: rest =>
    if n.rule.isWord then classParts name base before rest
    else if n.rule = .superclass then do classParts name (some (← superclass n)) before rest
    else do classParts name base (before ++ (← classBody n)) rest

def superclass : Node Rule → Built Expr
  | .mk _ start stop cs => firstExpr ⟨start.pos, stop⟩ cs

def firstExpr (span : Span) : List (Node Rule) → Built Expr
  | [] => refuse .incomplete span
  | n :: _ => expr n

def classBody : Node Rule → Built (List Member)
  | .mk _ _ _ cs => members cs

def members : List (Node Rule) → Built (List Member)
  | [] => .ok []
  | n :: rest => do
    let m ← member n
    return m :: (← members rest)

def member : Node Rule → Built Member
  | .mk r start stop cs =>
    match r with
    | .valDecl => do
      let v ← valued ⟨start.pos, stop⟩ cs
      return .val v.1 v.2
    | .varDecl => do
      let v ← maybeValued ⟨start.pos, stop⟩ cs
      return .var v.1 v.2
    | .methodDecl => do
      let f ← named ⟨start.pos, stop⟩ cs
      return .method f.1 f.2.1 f.2.2
    | .operatorDecl => do
      let f ← named ⟨start.pos, stop⟩ cs
      return .operator f.1 f.2.1 f.2.2
    | .propertyDecl => property ⟨start.pos, stop⟩ cs
    | _ => refuse .strayMember ⟨start.pos, stop⟩

def property (span : Span) : List (Node Rule) → Built Member
  | [] => refuse .incomplete span
  | n :: rest => if n.rule.isWord then property span rest else accessors n.text none none rest

def accessors (name : String) (getter setter : Option Accessor) : List (Node Rule) → Built Member
  | [] => .ok (.property name getter setter)
  | n :: rest =>
    if n.rule.isWord then accessors name getter setter rest
    else if n.rule = .getter then do accessors name (some (← accessor n)) setter rest
    else do accessors name getter (some (← accessor n)) rest

def accessor : Node Rule → Built Accessor
  | .mk _ start stop cs => accessorParts ⟨start.pos, stop⟩ [] none cs

def accessorParts (span : Span) (params : List String) (body : Option Block) :
    List (Node Rule) → Built Accessor
  | [] =>
    match body with
    | some b => .ok (.mk params b)
    | none => refuse .bodyless span
  | n :: rest =>
    if n.rule.isWord then accessorParts span params body rest
    else if n.rule = .parameters then accessorParts span (names n) body rest
    else do accessorParts span params (some (← block n)) rest

end

def program : List (Node Rule) → Built Block
  | [] => .ok []
  | n :: _ => block n

end ObjectLang.Syntax
