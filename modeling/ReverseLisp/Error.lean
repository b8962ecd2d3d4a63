import ReverseLisp.Primitive
import ReverseLisp.SpecialForm

/-!
# Errors

Every way in which reading, analysing, running or configuring can fail, each with its kind and its
message. An error about a value carries the text of that value, made when the error arose: a value
whose text cannot be made, because an integer in it has too many digits, raises `digitLimit`
instead.
-/

namespace ReverseLisp

/-- What went wrong. -/
inductive Error where
  /-- An opening bracket has no matching closing one. -/
  | unterminatedList
  /-- An expression was asked for after the last token. -/
  | endOfInput
  /-- A marker is the last token; the argument is its text, quoted. -/
  | nothingToRead (marker : String)
  /-- A closing bracket stands where an expression should start. -/
  | unexpectedCloser
  /-- A token of a kind that the reader does not know. -/
  | unknownToken (kind text : String)
  /-- One expression was asked for and another number of them found. -/
  | notOneExpression (count : Nat)
  /-- A program has unequally many opening and closing brackets. -/
  | unbalanced
  /-- A special form has a wrong number of operands. -/
  | formArity (form : CountedForm)
  /-- The value is no expression. -/
  | notExpression (shown : String)
  /-- A definition or assignment names something that is no symbol. -/
  | nameExpected (form : SpecialForm) (shown : String)
  /-- The parameters of a function are no list. -/
  | parametersNotList (shown : String)
  /-- A parameter is no symbol. -/
  | parameterNotSymbol (shown : String)
  /-- A parameter occurs twice. -/
  | parametersRepeated (shown : String)
  /-- No frame of the chain binds the name that is looked up. -/
  | unboundLookup (name : String)
  /-- No frame of the chain binds the name that is assigned. -/
  | unboundAssignment (name : String)
  /-- A binding was asked for under something that is no symbol. -/
  | invalidName (shown : String)
  /-- A list was used as a name. -/
  | listName
  /-- A binding was asked for in the empty environment. -/
  | emptyEnvironment (name : String)
  /-- A frame was asked for with unequally many parameters and arguments. -/
  | frameArity (expected got : Nat)
  /-- A closure was applied to a wrong number of arguments. -/
  | closureArity (shown : String) (expected got : Nat)
  /-- The head of an application is no function. -/
  | notFunction (shown : String)
  /-- An argument of an arithmetic primitive is no number. -/
  | notNumber (primitive : Primitive) (shown : String)
  /-- A primitive that needs an argument got none. -/
  | noArguments (primitive : Primitive)
  /-- A primitive was applied to a wrong number of arguments. -/
  | argumentCount (primitive : Primitive) (expected : Nat)
  /-- A list was to be extended at the front and is no list. -/
  | notList (shown : String)
  /-- A non-empty list was to be taken apart. -/
  | notNonemptyList (primitive : Primitive) (shown : String)
  /-- A divisor is zero. -/
  | divisionByZero
  /-- An integer beyond the binary numbers meets a binary number. -/
  | integerTooLarge
  /-- A quotient of integers is beyond the binary numbers. -/
  | quotientTooLarge
  /-- A recursion limit is too large to be put in force. -/
  | limitTooLarge
  /-- An integer has too many digits to be written. -/
  | digitLimit
  /-- Evaluation nests too deeply. -/
  | recursionLimit
  /-- No transformation belongs to a kind of token; the argument is its name, quoted. -/
  | noTransform (kind : String)
  /-- The recursion limit is set to something that is no integer; the argument is quoted. -/
  | badRecursionLimit (raw : String)
  /-- The log level is set to an unknown name; the argument is quoted. -/
  | unknownLogLevel (name : String)
  /-- A directory holds none of the library files. -/
  | noLibrary (root : String)
deriving DecidableEq, Inhabited

namespace Error

/-- The kinds of error that callers tell apart. -/
inductive Kind where
  | malformed
  | unboundSymbol
  | wrongArity
  | wrongType
  | invalidSymbol
  | invalidKey
  | zeroDivisor
  | overflow
  | badValue
  | fileNotFound
  | tooDeep
deriving DecidableEq, Inhabited

/-- The kind of an error. -/
def kind : Error → Kind
  | unterminatedList | endOfInput | nothingToRead _ | unexpectedCloser | unknownToken _ _
  | notOneExpression _ | unbalanced | notExpression _ => .malformed
  | unboundLookup _ | unboundAssignment _ => .unboundSymbol
  | formArity _ | frameArity _ _ | closureArity _ _ _ | noArguments _ | argumentCount _ _ =>
    .wrongArity
  | notFunction _ | notNumber _ _ | notList _ | notNonemptyList _ _ => .wrongType
  | nameExpected _ _ | parametersNotList _ | parameterNotSymbol _ | parametersRepeated _
  | invalidName _ | emptyEnvironment _ => .invalidSymbol
  | listName => .invalidKey
  | divisionByZero => .zeroDivisor
  | integerTooLarge | quotientTooLarge | limitTooLarge => .overflow
  | digitLimit | noTransform _ | badRecursionLimit _ | unknownLogLevel _ => .badValue
  | noLibrary _ => .fileNotFound
  | recursionLimit => .tooDeep

/-- What a special form asks of its operands. -/
def formArityMessage : CountedForm → String
  | .quote => "Quote expects exactly 1 argument"
  | .branch => "if requires a condition, a then-expression and an optional else-expression"
  | .definition => "def requires exactly 2 arguments"
  | .assignment => "set! requires exactly 2 arguments: (set! var value)"
  | .function => "fun requires at least a parameter list"
  | .delay => "delay expects exactly 1 argument"

/-- A count of arguments in words. -/
def argumentsText (n : Nat) : String := if n = 1 then "1 argument" else s!"{n} arguments"

/-- The message of an error. -/
def message : Error → String
  | unterminatedList => "Unterminated list: missing closing bracket"
  | endOfInput => "Unexpected end of input"
  | nothingToRead marker => s!"Reader macro {marker} has nothing to read"
  | unexpectedCloser => "Unexpected closing bracket"
  | unknownToken kind text => s!"Unknown token: {kind} {text}"
  | notOneExpression count => s!"Expected exactly one expression, got {count}"
  | unbalanced => "BAD SYNTAX -- parentheses unbalanced!"
  | formArity form => formArityMessage form
  | notExpression shown => s!"Cannot analyze expression {shown}"
  | nameExpected form shown => s!"{form.word.name} first argument must be a Symbol, got {shown}"
  | parametersNotList shown => s!"fun parameters must be a list, got {shown}"
  | parameterNotSymbol shown => s!"fun parameter must be a Symbol, got {shown}"
  | parametersRepeated shown => s!"fun parameters must be distinct: {shown}"
  | unboundLookup name => s!"Cannot lookup unbound symbol {name}"
  | unboundAssignment name => s!"Cannot set unbound symbol {name}"
  | invalidName shown => s!"Cannot define {shown} as a symbol"
  | listName => "unhashable type: 'list'"
  | emptyEnvironment name => s!"Cannot define {name} in the empty environment"
  | frameArity expected got => s!"Expected {expected} argument(s), got {got}"
  | closureArity shown expected got => s!"{shown} expects {expected} argument(s), got {got}"
  | notFunction shown => s!"Cannot apply non-function {shown}"
  | notNumber p shown => s!"All arguments to {p.symbol.name} must be numbers, got {shown}"
  | noArguments p => s!"{p.symbol.name} requires at least 1 argument"
  | argumentCount p n => s!"{p.symbol.name} requires exactly {argumentsText n}"
  | notList shown => s!"cons expects a list as its second argument, got {shown}"
  | notNonemptyList p shown => s!"{p.symbol.name} expects a non-empty list, got {shown}"
  | divisionByZero => "Division by zero"
  | integerTooLarge => "int too large to convert to float"
  | quotientTooLarge => "integer division result too large for a float"
  | limitTooLarge => "Python int too large to convert to C int"
  | digitLimit => "Exceeds the limit (4300 digits) for integer string conversion"
  | recursionLimit => "maximum recursion depth exceeded"
  | noTransform kind => s!"No reader macro defined for {kind}"
  | badRecursionLimit raw => s!"RTLISP_RECURSION_LIMIT must be an integer, got {raw}"
  | unknownLogLevel name => s!"Unknown level: {name}"
  | noLibrary root => s!"No prelude files found under {root}"

end Error

end ReverseLisp
