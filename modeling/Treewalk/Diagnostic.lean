/-
Diagnostics: why something failed, and where.

A `Cause` says what went wrong in the words of the language; `Cause.kind` sorts the causes and `Cause.message` words
them. A report joins kind, place and message; a place that is not known leaves only kind and message.
-/
import Treewalk.Number.Layout
import Treewalk.Source

namespace Treewalk

/-- types of values as messages name them -/
inductive TypeName where
  | number | boolean | array | function
deriving DecidableEq

def TypeName.text : TypeName → String
  | .number => "number"
  | .boolean => "boolean"
  | .array => "array"
  | .function => "function"

/-- what the reader of a program met instead of what it needed -/
inductive Found where
  | endOfInput
  | lexeme (text : Bytes)
deriving DecidableEq

def Found.text : Found → Bytes
  | .endOfInput => bytes "end of input"
  | .lexeme t => Bytes.quoted t

/-- what a program must have at a place -/
inductive Expectation where
  | alternative | closeSubscript | closeGroup | openArguments | closeArguments | openArray | closeArray
  | functionName | openParameters | parameter | closeParameters | functionBody | openBlock
deriving DecidableEq

def Expectation.text : Expectation → String
  | .alternative => "Expected ':' after conditional 'then' expression"
  | .closeSubscript => "Expected ']' after subscript"
  | .closeGroup => "Expected ')' after expression"
  | .openArguments => "Expected '(' to start call arguments"
  | .closeArguments => "Expected ')' after call arguments"
  | .openArray => "Expected '['"
  | .closeArray => "Expected ']' to close array literal"
  | .functionName => "Expected function name after 'fun'"
  | .openParameters => "Expected '(' after function name"
  | .parameter => "Expected parameter name"
  | .closeParameters => "Expected ')' after parameters"
  | .functionBody => "Expected '=' before function body"
  | .openBlock => "Expected '\x7b' to start block"

/-- the part a value plays where its type matters -/
inductive Role where
  | negated | inverted
  | left (op : Bytes) | right (op : Bytes)
  | test | loopCondition
  | argument (index : Nat) (callee : Bytes)
deriving DecidableEq

def Role.text : Role → Bytes
  | .negated => bytes "operand of unary '-'"
  | .inverted => bytes "operand of '!'"
  | .left op => bytes "left operand of " ++ Bytes.quoted op
  | .right op => bytes "right operand of " ++ Bytes.quoted op
  | .test => bytes "conditional test"
  | .loopCondition => bytes "while condition"
  | .argument i f => bytes "argument " ++ Bytes.ofNat i ++ bytes " of " ++ Bytes.quoted f

/-- kinds of failures -/
inductive ErrorKind where
  | syntactic | redeclaration | unboundVariable | type | unknownOperator | notCallable | arityMismatch
  | indexOutOfRange | stackOverflow | runtime
deriving DecidableEq

def ErrorKind.name : ErrorKind → String
  | .syntactic => "SyntaxError"
  | .redeclaration => "RedeclarationError"
  | .unboundVariable => "UnboundVariableError"
  | .type => "TypeError"
  | .unknownOperator => "UnknownOperatorError"
  | .notCallable => "NotCallableError"
  | .arityMismatch => "ArityMismatchError"
  | .indexOutOfRange => "IndexOutOfRangeError"
  | .stackOverflow => "StackOverflowError"
  | .runtime => "RuntimeError"

/-- why something failed -/
inductive Cause where
  -- reading
  | unexpectedByte (byte : UInt8)
  | expected (what : Expectation) (found : Found)
  | expectedStatement (found : Found)
  | expectedExpression (found : Found)
  | expectedBinding (name : Bytes)
  | duplicateParameter (parameter function : Bytes)
  | unterminatedBlock
  | invalidNumeral (text : Bytes)
  -- names
  | alreadyDeclared (name : Bytes)
  | undefinedVariable (name : Bytes)
  | undeclaredTarget (name : Bytes)
  -- values
  | wrongType (wanted : TypeName) (role : Role) (got : TypeName)
  | notSubscriptable (got : TypeName)
  | indexType (got : TypeName)
  | indexFraction (index : Number)
  | indexRange (index : Number) (length : Nat)
  | unknownUnary (op : Bytes)
  | unknownBinary (op : Bytes)
  -- calls
  | notCallable (name : Bytes) (got : TypeName)
  | arity (name : Bytes) (wanted got : Nat)
  | scopeGone (name : Bytes) (declared : Location)
  | callDepth (name : Bytes)
  -- trees
  | missingPart
deriving DecidableEq

namespace Cause

def kind : Cause → ErrorKind
  | .unexpectedByte _ | .expected _ _ | .expectedStatement _ | .expectedExpression _ | .expectedBinding _
  | .duplicateParameter _ _ | .unterminatedBlock | .invalidNumeral _ => .syntactic
  | .alreadyDeclared _ => .redeclaration
  | .undefinedVariable _ | .undeclaredTarget _ => .unboundVariable
  | .wrongType _ _ _ | .notSubscriptable _ | .indexType _ | .indexFraction _ => .type
  | .indexRange _ _ => .indexOutOfRange
  | .unknownUnary _ | .unknownBinary _ => .unknownOperator
  | .notCallable _ _ => .notCallable
  | .arity _ _ _ => .arityMismatch
  | .scopeGone _ _ | .missingPart => .runtime
  | .callDepth _ => .stackOverflow

def message : Cause → Bytes
  | .unexpectedByte b => bytes "Unexpected character " ++ Bytes.quoted [b] ++ bytes "."
  | .expected what found => bytes what.text ++ bytes " (found " ++ found.text ++ bytes ")."
  | .expectedStatement found => bytes "Expected a statement, found " ++ found.text ++ bytes "."
  | .expectedExpression found => bytes "Expected an expression, found " ++ found.text ++ bytes "."
  | .expectedBinding x => bytes "Expected ':=' or '=' after " ++ Bytes.quoted x ++ bytes "."
  | .duplicateParameter p f =>
    bytes "Duplicate parameter " ++ Bytes.quoted p ++ bytes " in function " ++ Bytes.quoted f ++ bytes "."
  | .unterminatedBlock => bytes "Unterminated block: expected '\x7d'."
  | .invalidNumeral t => bytes "Invalid numeric literal " ++ Bytes.quoted t ++ bytes "."
  | .alreadyDeclared x => bytes "Identifier " ++ Bytes.quoted x ++ bytes " has already been declared in this scope."
  | .undefinedVariable x => bytes "Undefined variable " ++ Bytes.quoted x ++ bytes "."
  | .undeclaredTarget x => bytes "Cannot assign to undeclared variable " ++ Bytes.quoted x ++ bytes "."
  | .wrongType wanted role got =>
    bytes "Expected a " ++ bytes wanted.text ++ bytes " for " ++ role.text ++ bytes ", got " ++ bytes got.text ++
      bytes "."
  | .notSubscriptable got =>
    bytes "Cannot subscript a value of type " ++ bytes got.text ++ bytes "; expected array."
  | .indexType got => bytes "Array index must be a number, got " ++ bytes got.text ++ bytes "."
  | .indexFraction i => bytes "Array index must be an integer, got " ++ i.text ++ bytes "."
  | .indexRange i n =>
    bytes "Index " ++ i.text ++ bytes " is out of range for array of length " ++ Bytes.ofNat n ++ bytes "."
  | .unknownUnary op => bytes "Unknown unary operator " ++ Bytes.quoted op ++ bytes "."
  | .unknownBinary op => bytes "Unknown binary operator " ++ Bytes.quoted op ++ bytes "."
  | .notCallable x got => Bytes.quoted x ++ bytes " is a " ++ bytes got.text ++ bytes ", not a function."
  | .arity f wanted got =>
    bytes "Function " ++ Bytes.quoted f ++ bytes " expects " ++ Bytes.ofNat wanted ++
      bytes " argument(s) but was called with " ++ Bytes.ofNat got ++ bytes "."
  | .scopeGone f l =>
    bytes "The scope of function " ++ Bytes.quoted f ++
      (if l.known then bytes " (declared at " ++ l.text ++ bytes ")" else []) ++ bytes " no longer exists."
  | .callDepth f => bytes "Maximum call stack size exceeded while calling " ++ Bytes.quoted f ++ bytes "."
  | .missingPart => bytes "The tree lacks a part."

end Cause

/-- a failure: its cause and its place -/
structure Diagnostic where
  cause : Cause
  location : Location
deriving DecidableEq

/-- a failure in words -/
structure Report where
  kind : Bytes
  message : Bytes
  location : Location
deriving DecidableEq

def Diagnostic.report (d : Diagnostic) : Report := ⟨bytes d.cause.kind.name, d.cause.message, d.location⟩

/-- the whole report: kind, place, message and trace, or only kind and message when the place is not known -/
def Report.text (r : Report) : Bytes :=
  if r.location.known then
    r.kind ++ bytes " at " ++ r.location.text ++ bytes "\n" ++ r.message ++ bytes "\n --> Traced at:\n" ++
      r.location.trace
  else r.kind ++ bytes ": " ++ r.message

/-- the report as a reader sees it: a NUL byte ends it -/
def Report.shown (r : Report) : Bytes := r.text.beforeNul

end Treewalk
