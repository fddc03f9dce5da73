import ObjectLang.Name
import ObjectLang.Syntax.Parse

/-!
What can go wrong, by cause, and the texts that say so.
A fault that leaves a statement becomes fatal: it then carries the text of the innermost statement
that it left, and passes through the statements around it unchanged.
-/
namespace ObjectLang

inductive Group where
  | symbol
  | symbolUnknown
  | symbolContent
  | constantValue
  | arity
  | unsupported
  | invalidType
  | arithmetic
  | output
  | malformed
  | fatal
deriving DecidableEq

namespace Group

def label : Group → String
  | symbol => "SymbolError"
  | symbolUnknown => "SymbolUnknownError"
  | symbolContent => "SymbolContentError"
  | constantValue => "ConstantValueError"
  | arity => "ArityError"
  | unsupported => "OperationNotSupportedError"
  | invalidType => "InvalidTypeError"
  | arithmetic => "ArithmeticError"
  | output => "IOError"
  | malformed => "SyntaxError"
  | fatal => "FatalError"

def isSymbol : Group → Bool
  | symbol | symbolUnknown | symbolContent => true
  | _ => false

end Group

inductive Fault where
  | invalidName (rule : NameRule) (name : String)
  | moduleTaken (name : String)
  | noActivation (depth : Nat)
  | noScope (activation : String)
  | exportOutside
  | unknownName (name : String)
  | nameTaken (name : String)
  | constant
  | arity (caller name : String) (expected actual : Nat)
  | missingArgument (index : Nat)
  | unsupported (type operation : String)
  | notClass (text : String)
  | notType (text : String)
  | notModule (name : String)
  | memberName (type : String)
  | notString (type : String)
  | notInteger (type : String)
  | notNumber (type : String)
  | negativeRepeat (count : Int64)
  | setterAlone (property : String)
  | divisionByZero
  | overflow (lhs : Int64) (op : Arith) (rhs : Int64)
  | repeatTooLarge (count : Int64)
  | closedSink (reason : String)
  /-- A fault raised on purpose, with a text of its own. -/
  | raised (group : Group) (text : String)

namespace Fault

def group : Fault → Group
  | invalidName .. | moduleTaken _ | noActivation _ | noScope _ | exportOutside => .symbol
  | unknownName _ => .symbolUnknown
  | nameTaken _ => .symbolContent
  | constant => .constantValue
  | arity .. | missingArgument _ => .arity
  | unsupported .. => .unsupported
  | notClass _ | notType _ | notModule _ | memberName _ | notString _ | notInteger _ | notNumber _
  | negativeRepeat _ | setterAlone _ => .invalidType
  | divisionByZero | overflow .. | repeatTooLarge _ => .arithmetic
  | closedSink _ => .output
  | raised g _ => g

def message : Fault → String
  | invalidName rule name => "Invalid " ++ rule.noun ++ " '" ++ name ++ "'"
  | moduleTaken name => "Module '" ++ name ++ "' is already defined"
  | noActivation depth => "no stack frame at depth " ++ toString depth
  | noScope activation => "frame '" ++ activation ++ "' has no open scope"
  | exportOutside => "Cannot export outside of a module"
  | unknownName name => "Unknown symbol '" ++ name ++ "'"
  | nameTaken name => "Symbol '" ++ name ++ "' is already defined"
  | constant => "Cannot assign to a constant value"
  | arity caller name expected actual =>
    caller ++ ": '" ++ name ++ "' expects " ++ toString expected ++ " argument(s), received " ++
      toString actual
  | missingArgument index => "argument " ++ toString index ++ " is missing"
  | unsupported type operation =>
    "Operation '" ++ operation ++ "' not supported for '" ++ type ++ "'"
  | notClass text => "'" ++ text ++ "' is not a class"
  | notType text => "'" ++ text ++ "' is not a type"
  | notModule name => "'" ++ name ++ "' is not a module"
  | memberName type => "Member name must be a String, found '" ++ type ++ "'"
  | notString type => "Expected a String, found '" ++ type ++ "'"
  | notInteger type => "Expected an Integer, found '" ++ type ++ "'"
  | notNumber type => "Expected a number, found '" ++ type ++ "'"
  | negativeRepeat count => "Cannot repeat a String " ++ toString count.toInt ++ " times"
  | setterAlone property => "property '" ++ property ++ "' has a setter but no getter"
  | divisionByZero => "Division by zero"
  | overflow lhs op rhs =>
    "Integer overflow in " ++ toString lhs.toInt ++ " " ++ op.symbol ++ " " ++ toString rhs.toInt
  | repeatTooLarge count =>
    "Repeating a String " ++ toString count.toInt ++ " times is too large"
  | closedSink reason => reason
  | raised _ text => text

end Fault

inductive Error where
  | fault (f : Fault)
  | malformed (e : SyntaxError)
  | fatal (cause : Error) (excerpt : String)

namespace Error

def group : Error → Group
  | fault f => f.group
  | malformed _ => .malformed
  | fatal _ _ => .fatal

def message : Error → String
  | fault f => f.message
  | malformed e => e.message
  | fatal cause excerpt =>
    let inner := cause.message
    if inner = "" then cause.group.label ++ " at: " ++ excerpt
    else cause.group.label ++ "(" ++ inner ++ ") at: " ++ excerpt

def rootCause : Error → Error
  | fatal cause _ => cause.rootCause
  | e => e

def isFatal : Error → Bool
  | fatal _ _ => true
  | _ => false

def leaving (text : String) : Error → Error
  | fatal cause excerpt => fatal cause excerpt
  | e => fatal e text

end Error

end ObjectLang
