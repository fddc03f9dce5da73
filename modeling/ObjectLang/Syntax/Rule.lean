/-!
The rules of the grammar by name, in the order in which messages list them.
-/
namespace ObjectLang.Syntax

/-- The words with a meaning of their own. The first twelve in the order of `reserved` can never be
names; `as`, `get` and `set` have their meaning only where the grammar asks for them. -/
inductive Word where
  | asWord
  | classWord
  | closureWord
  | exportWord
  | functionWord
  | getWord
  | importWord
  | methodWord
  | moduleWord
  | operatorWord
  | propertyWord
  | returnWord
  | setWord
  | valWord
  | varWord
deriving DecidableEq

namespace Word

def spelling : Word → String
  | .asWord => "as"
  | .classWord => "class"
  | .closureWord => "closure"
  | .exportWord => "export"
  | .functionWord => "function"
  | .getWord => "get"
  | .importWord => "import"
  | .methodWord => "method"
  | .moduleWord => "module"
  | .operatorWord => "operator"
  | .propertyWord => "property"
  | .returnWord => "return"
  | .setWord => "set"
  | .valWord => "val"
  | .varWord => "var"

def all : List Word :=
  [.asWord, .classWord, .closureWord, .exportWord, .functionWord, .getWord, .importWord,
    .methodWord, .moduleWord, .operatorWord, .propertyWord, .returnWord, .setWord, .valWord,
    .varWord]

def reserved : List Word :=
  [.classWord, .closureWord, .exportWord, .functionWord, .importWord, .methodWord, .moduleWord,
    .operatorWord, .propertyWord, .returnWord, .valWord, .varWord]

end Word

inductive Rule where
  | endOfInput
  | program
  | block
  | statement
  | keyword
  | word (w : Word)
  | ident
  | moduleName
  | valDecl
  | varDecl
  | returnStmt
  | assignment
  | assignOp
  | parameters
  | functionDecl
  | classDecl
  | superclass
  | classBody
  | methodDecl
  | operatorDecl
  | operator
  | propertyDecl
  | getter
  | setter
  | moduleDecl
  | exportStmt
  | importStmt
  | importAlias
  | importOnly
  | sum
  | addOp
  | product
  | mulOp
  | chain
  | call
  | index
  | member
  | functionExpr
  | closureExpr
  | float
  | integer
  | string
  | stringContent
deriving DecidableEq

namespace Rule

def isWord : Rule → Bool
  | .word _ => true
  | _ => false

def label : Rule → String
  | .endOfInput => "EOI"
  | .program => "program"
  | .block => "block"
  | .statement => "statement"
  | .keyword => "keyword"
  | .word w => "k_" ++ w.spelling
  | .ident => "ident"
  | .moduleName => "module_name"
  | .valDecl => "val_decl"
  | .varDecl => "var_decl"
  | .returnStmt => "return_stmt"
  | .assignment => "assignment"
  | .assignOp => "assign_op"
  | .parameters => "parameters"
  | .functionDecl => "function_decl"
  | .classDecl => "class_decl"
  | .superclass => "superclass"
  | .classBody => "class_body"
  | .methodDecl => "method_decl"
  | .operatorDecl => "operator_decl"
  | .operator => "operator"
  | .propertyDecl => "property_decl"
  | .getter => "getter"
  | .setter => "setter"
  | .moduleDecl => "module_decl"
  | .exportStmt => "export_stmt"
  | .importStmt => "import_stmt"
  | .importAlias => "import_alias"
  | .importOnly => "import_only"
  | .sum => "sum"
  | .addOp => "add_op"
  | .product => "product"
  | .mulOp => "mul_op"
  | .chain => "postfix"
  | .call => "call"
  | .index => "index"
  | .member => "member"
  | .functionExpr => "function_expr"
  | .closureExpr => "closure_expr"
  | .float => "float"
  | .integer => "integer"
  | .string => "string"
  | .stringContent => "string_content"

def all : List Rule :=
  [.endOfInput, .program, .block, .statement, .keyword] ++ Word.all.map .word ++
  [.ident, .moduleName, .valDecl, .varDecl, .returnStmt, .assignment, .assignOp, .parameters,
    .functionDecl, .classDecl, .superclass, .classBody, .methodDecl, .operatorDecl, .operator,
    .propertyDecl, .getter, .setter, .moduleDecl, .exportStmt, .importStmt, .importAlias,
    .importOnly, .sum, .addOp, .product, .mulOp, .chain, .call, .index, .member, .functionExpr,
    .closureExpr, .float, .integer, .string, .stringContent]

theorem mem_all (r : Rule) : r ∈ all := by
  cases r with
  | word w => cases w <;> decide
  | _ => decide

end Rule

end ObjectLang.Syntax
