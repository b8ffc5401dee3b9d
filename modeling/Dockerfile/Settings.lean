import Dockerfile.Text.IntegerLiteral
import Dockerfile.Text.Numeral
import Dockerfile.Text.UpperCase

/-!
# Settings

Settings are read from environment variables: how many documents are kept, the folder that overrides
the documentation, and the level from which on messages are logged. A number that cannot be read or
is negative is reported and replaced; an unknown level counts as `WARNING`. How often the command
line asks for more messages goes before the level of the environment.
-/

namespace Dockerfile

/-- The values of environment variables, `none` for those that are not set. -/
abbrev Environment := String → Option (List Char)

/-! ## Numbers -/

/-- Something worth a warning in the environment. The number is the one used instead. -/
inductive SettingNotice
  | notAnInteger (name : String) (fallback : Int) (text : List Char)
  | negative (name : String) (fallback value : Int)
deriving DecidableEq

/-- The text of the warning. -/
def SettingNotice.message : SettingNotice → List Char
  | .notAnInteger name fallback text =>
    name.toList ++ ": not an integer, using ".toList ++ signedDecimal fallback ++ ": ".toList
      ++ text
  | .negative name fallback value =>
    name.toList ++ ": negative, using ".toList ++ signedDecimal fallback ++ ": ".toList
      ++ signedDecimal value

/-- The number in an environment variable. A variable that holds only white space counts as not
set. -/
def numberSetting (environment : Environment) (name : String) (fallback : Int) :
    Int × List SettingNotice :=
  match environment name with
  | none => (fallback, [])
  | some text =>
    if text.all isUnicodeSpace then (fallback, [])
    else
      match integer? text with
      | none => (fallback, [.notAnInteger name fallback text])
      | some value =>
        if value < 0 then (fallback, [.negative name fallback value]) else (value, [])

/-! ## Levels -/

/-- How grave a message is. -/
inductive LogLevel
  | notSet
  | debug
  | info
  | warning
  | error
  | critical
deriving DecidableEq

namespace LogLevel

/-- Levels are ordered by their weights. -/
def weight : LogLevel → Nat
  | .notSet => 0
  | .debug => 10
  | .info => 20
  | .warning => 30
  | .error => 40
  | .critical => 50

/-- The names of levels; some have two. -/
def names : List (List Char × LogLevel) :=
  [("NOTSET".toList, .notSet), ("DEBUG".toList, .debug), ("INFO".toList, .info),
    ("WARN".toList, .warning), ("WARNING".toList, .warning), ("ERROR".toList, .error),
    ("CRITICAL".toList, .critical), ("FATAL".toList, .critical)]

/-- The level of a name in any case. -/
def ofName? (s : List Char) : Option LogLevel := names.lookup (upperCase s)

end LogLevel

/-! ## Settings -/

/-- What the environment decides. -/
structure Settings where
  /-- How many documents are kept. -/
  cacheSize : Int
  /-- The folder that overrides the documentation. -/
  docsFolder : Option (List Char)
  /-- The name of the level, as it is written. -/
  logLevel : List Char
deriving DecidableEq

namespace Settings

/-- How many documents are kept unless the environment says otherwise. -/
def defaultCacheSize : Int := 16

/-- The settings of an environment, and what is to be reported about it. -/
def ofEnvironment (environment : Environment) : Settings × List SettingNotice :=
  let (cacheSize, notices) := numberSetting environment "DOCKHOVER_CACHE_SIZE" defaultCacheSize
  ({ cacheSize
     docsFolder := environment "DOCKHOVER_DOCS_DIR"
     logLevel := (environment "DOCKHOVER_LOG_LEVEL").getD "WARNING".toList }, notices)

/-- The level in force when the command line asks for more messages `verbose` times. -/
def level (s : Settings) (verbose : Int) : LogLevel :=
  if 2 ≤ verbose then .debug
  else if verbose = 1 then .info
  else (LogLevel.ofName? s.logLevel).getD .warning

end Settings

end Dockerfile
