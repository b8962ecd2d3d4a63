import ReverseLisp.Error
import ReverseLisp.Number.Literal
import ReverseLisp.Text.Quoted
import ReverseLisp.Text.Uppercase

/-!
# Settings

What the environment variables mean. A variable that is not set is `none`.
-/

namespace ReverseLisp.Settings

/-- The recursion limit unless one is set. -/
def defaultLimit : Nat := 10000

/-- The least recursion limit; a smaller setting is raised to it. -/
def leastLimit : Nat := 1000

/-- The recursion limit that a setting asks for. An empty setting counts as none. -/
def recursionLimit (raw : Option String) : Except Error Nat :=
  match raw with
  | none | some "" => .ok defaultLimit
  | some raw =>
    match Literal.int? raw.toList with
    | some n => .ok (max n.toNat leastLimit)
    | none => .error (.badRecursionLimit (Text.quoted raw))

/-- The greatest recursion limit that can be put in force. -/
def greatestLimit : Nat := 2147483647

/-- The limit in force once a session has started. The current one stays unless a greater one is
asked for. -/
def effectiveLimit (current : Nat) (raw : Option String) : Except Error Nat := do
  let limit ← recursionLimit raw
  if limit ≤ current then return current
  else if limit ≤ greatestLimit then return limit
  else throw .limitTooLarge

/-- The log level unless one is set. -/
def defaultLogLevel : String := "WARNING"

/-- The log level that a setting asks for, in upper case. -/
def logLevel (raw : Option String) : String := Text.upper (raw.getD defaultLogLevel)

/-- The log levels that exist. -/
def logLevels : List String :=
  ["CRITICAL", "FATAL", "ERROR", "WARNING", "WARN", "INFO", "DEBUG", "NOTSET"]

/-- Refuses a log level that does not exist. -/
def checkLogLevel (level : String) : Except Error Unit :=
  if level ∈ logLevels then .ok () else .error (.unknownLogLevel (Text.quoted level))

end ReverseLisp.Settings
