import ReverseLisp.Session
import ReverseLisp.Settings

/-!
# Starting a session from settings

A session starts only if its settings make sense: the log level is checked first, then the
recursion limit, and last the library is loaded.
-/

namespace ReverseLisp.Session

/-- The session that settings ask for, with a library that was looked for before. -/
def configured (logLevel recursionLimit : Option String) (library : Except Error (List String)) :
    Except Error Session := do
  Settings.checkLogLevel (Settings.logLevel logLevel)
  withLibrary (← Settings.effectiveLimit Settings.leastLimit recursionLimit) (← library)

end ReverseLisp.Session
