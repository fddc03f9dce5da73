import ObjectLang.Proofs.Syntax.Words

/-!
Printing of programs.
A program is printed as tokens with single spaces between them; a semicolon follows every statement
and every member of a class. There are no more parentheses than ranks and the grouping from the left
ask for.
-/
namespace ObjectLang

open Syntax

/-- How tightly an operator binds: `*` and `/` bind more tightly than `+` and `-`. -/
def Arith.rank : Arith → Nat
  | .add | .sub => 0
  | .mul | .div => 1

/-- The rank of the outermost operator; expressions of rank 2 have none. -/
def Expr.rank : Expr → Nat
  | .binary op _ _ => op.rank
  | _ => 2

def assignSymbol : Option Arith → String
  | none => "="
  | some op => op.updateSymbol

namespace Print

def parens (needed : Bool) (ts : List String) : List String :=
  if needed then "(" :: (ts ++ [")"]) else ts

def commas : List (List String) → List String := List.intercalate [","]

def names (xs : List String) : List String := commas (xs.map fun x => [x])

def params (xs : List String) : List String := "(" :: (names xs ++ [")"])

def braces (ts : List String) : List String := "\x7b" :: (ts ++ ["\x7d"])

def accessors (getter setter : List String) : List String :=
  if getter = [] then [] else braces (getter ++ setter)

def binding : Binding → List String
  | .everything => []
  | .only xs => "(" :: (names xs ++ [")"])
  | .under x => ["as", x]

end Print

mutual

/-- The tokens of an expression. Floating-point literals are not printed. -/
@[simp] def Expr.tokens : Expr → List String
  | .integer value => [value.toInt.toNat.repr]
  | .float _ => []
  | .string value => [quote value]
  | .name name => [name]
  | .binary op lhs rhs =>
    Print.parens (lhs.rank < op.rank) lhs.tokens ++
      op.symbol :: Print.parens (rhs.rank ≤ op.rank) rhs.tokens
  | .call callee args =>
    Print.parens (callee.rank < 2) callee.tokens ++
      "(" :: (Print.commas (Expr.tokensEach args) ++ [")"])
  | .index target args =>
    Print.parens (target.rank < 2) target.tokens ++
      "[" :: (Print.commas (Expr.tokensEach args) ++ ["]"])
  | .member target name => Print.parens (target.rank < 2) target.tokens ++ [".", name]
  | .function params body =>
    "function" :: (Print.params params ++ Print.braces (Statement.tokensAll body))
  | .closure params body =>
    "closure" :: (Print.params params ++ Print.braces (Statement.tokensAll body))

@[simp] def Expr.tokensEach : List Expr → List (List String)
  | [] => []
  | e :: rest => e.tokens :: Expr.tokensEach rest

/-- The tokens of an expression that may be missing, behind `lead`, with parentheses if its rank is
below `rank`. -/
@[simp] def Expr.tokensIn (lead : List String) (rank : Nat) : Option Expr → List String
  | none => []
  | some e => lead ++ Print.parens (e.rank < rank) e.tokens

@[simp] def Statement.tokens : Statement → List String
  | .mk command _ _ => command.tokens

@[simp] def Statement.tokensAll : List Statement → List String
  | [] => []
  | s :: rest => s.tokens ++ ";" :: Statement.tokensAll rest

@[simp] def Command.tokens : Command → List String
  | .val name value => "val" :: name :: "=" :: value.tokens
  | .var name value => "var" :: name :: Expr.tokensIn ["="] 0 value
  | .assign name op value => name :: assignSymbol op :: value.tokens
  | .assignMember target name op value =>
    Print.parens (target.rank < 2) target.tokens ++ "." :: name :: assignSymbol op :: value.tokens
  | .giveBack value => "return" :: Expr.tokensIn [] 0 value
  | .function name params body =>
    "function" :: name :: (Print.params params ++ Print.braces (Statement.tokensAll body))
  | .declareClass name superclass members =>
    "class" :: name ::
      (Expr.tokensIn [":"] 2 superclass ++ Print.braces (Member.tokensAll members))
  | .declareModule name body => "module" :: name :: Print.braces (Statement.tokensAll body)
  | .importModule name binding => "import" :: name :: Print.binding binding
  | .exportNames names => "export" :: Print.names names
  | .evaluate value => value.tokens

@[simp] def Member.tokens : Member → List String
  | .val name value => "val" :: name :: "=" :: value.tokens
  | .var name value => "var" :: name :: Expr.tokensIn ["="] 0 value
  | .method name params body =>
    "method" :: name :: (Print.params params ++ Print.braces (Statement.tokensAll body))
  | .operator symbol params body =>
    "operator" :: symbol :: (Print.params params ++ Print.braces (Statement.tokensAll body))
  | .property name getter setter =>
    "property" :: name :: Print.accessors (Accessor.getTokens getter) (Accessor.setTokens setter)

@[simp] def Member.tokensAll : List Member → List String
  | [] => []
  | m :: rest => m.tokens ++ ";" :: Member.tokensAll rest

@[simp] def Accessor.getTokens : Option Accessor → List String
  | none => []
  | some (.mk _ body) => "get" :: Print.braces (Statement.tokensAll body)

@[simp] def Accessor.setTokens : Option Accessor → List String
  | none => []
  | some (.mk params body) =>
    "set" :: (Print.params params ++ Print.braces (Statement.tokensAll body))

end

def Binding.writable : Binding → Bool
  | .everything => true
  | .only names => !names.isEmpty && names.all (isName ·.toList)
  | .under name => isName name.toList

mutual

/-- The expression can be printed: it has no floating-point literals, its integers are not negative,
and its names are names. -/
@[simp] def Expr.writable : Expr → Bool
  | .integer value => 0 ≤ value
  | .float _ => false
  | .string _ => true
  | .name name => isName name.toList
  | .binary _ lhs rhs => lhs.writable && rhs.writable
  | .call callee args => callee.writable && Expr.writableAll args
  | .index target args => target.writable && Expr.writableAll args
  | .member target name => target.writable && isName name.toList
  | .function params body | .closure params body =>
    params.all (isName ·.toList) && Statement.writableAll body

@[simp] def Expr.writableAll : List Expr → Bool
  | [] => true
  | e :: rest => e.writable && Expr.writableAll rest

@[simp] def Expr.writableIn : Option Expr → Bool
  | none => true
  | some e => e.writable

@[simp] def Statement.writable : Statement → Bool
  | .mk command _ _ => command.writable

@[simp] def Statement.writableAll : List Statement → Bool
  | [] => true
  | s :: rest => s.writable && Statement.writableAll rest

@[simp] def Command.writable : Command → Bool
  | .val name value => isName name.toList && value.writable
  | .var name value => isName name.toList && Expr.writableIn value
  | .assign name _ value => isName name.toList && value.writable
  | .assignMember target name _ value => target.writable && isName name.toList && value.writable
  | .giveBack value => Expr.writableIn value
  | .function name params body =>
    isName name.toList && params.all (isName ·.toList) && Statement.writableAll body
  | .declareClass name superclass members =>
    isName name.toList && Expr.writableIn superclass && Member.writableAll members
  | .declareModule name body => isModuleName name.toList && Statement.writableAll body
  | .importModule name binding => isModuleName name.toList && binding.writable
  | .exportNames names => !names.isEmpty && names.all (isName ·.toList)
  | .evaluate value => value.writable

/-- The member can be printed: a setter comes with a getter, and a getter has no parameters. -/
@[simp] def Member.writable : Member → Bool
  | .val name value => isName name.toList && value.writable
  | .var name value => isName name.toList && Expr.writableIn value
  | .method name params body =>
    isName name.toList && params.all (isName ·.toList) && Statement.writableAll body
  | .operator symbol params body =>
    (symbols .operator).contains symbol && params.all (isName ·.toList) &&
      Statement.writableAll body
  | .property name getter setter =>
    isName name.toList && (getter.isSome || setter.isNone) && Accessor.writableGetter getter &&
      Accessor.writableSetter setter

@[simp] def Member.writableAll : List Member → Bool
  | [] => true
  | m :: rest => m.writable && Member.writableAll rest

@[simp] def Accessor.writableGetter : Option Accessor → Bool
  | none => true
  | some (.mk params body) => params.isEmpty && Statement.writableAll body

@[simp] def Accessor.writableSetter : Option Accessor → Bool
  | none => true
  | some (.mk params body) => params.all (isName ·.toList) && Statement.writableAll body

end

def render (b : Block) : String := " ".intercalate (Statement.tokensAll b)

end ObjectLang
