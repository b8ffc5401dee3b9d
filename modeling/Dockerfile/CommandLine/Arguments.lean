import Dockerfile.Line.Logical
import Dockerfile.Text.IntegerLiteral

/-!
# Arguments of the command

    hover [-h] [--docs DIR] [--json] [-v] FILE LINE:CHARACTER

Options may stand anywhere and long ones may be shortened as long as they stay unique. A long
option takes its value from the same argument after an equals sign, or from the next argument.
Short options may be put together behind one dash, with or without an equals sign after the first
one. After `--` nothing is an option any more.

An argument that starts with a dash is an option unless it is the dash alone, a negative number, or
no known option and holds a space.

All options up to `--` are looked at first, and an ambiguous one is refused. Then the arguments are
taken one after the other. A request for help is granted as soon as it is met, whatever comes behind
it; a place that cannot be read, a value that is missing and one that is not due are refused as soon
as they are met. Arguments that nothing asks for are put aside and refused in the end.

A `--` that stands where a text is due gives no text: as the value in `--docs=--`, and as the second
`--` of `FILE -- --`. Only right behind the first `--`, when that follows an option or opens the
arguments, is it a text like any other. Arguments with such a gap are accepted all the same; what
becomes of the gap shows when the command runs.
-/

namespace Dockerfile

/-! ## Places -/

/-- Reads `LINE:CHARACTER`, two integers with one colon between them. -/
def Position.parse? (s : List Char) : Option Position :=
  if s.count ':' = 1 then do
    let line ← integer? (s.takeWhile (· != ':'))
    let character ← integer? ((s.dropWhile (· != ':')).drop 1)
    some ⟨line, character⟩
  else none

/-- What is said about a text that is no position. -/
def Position.complaint (s : List Char) : List Char := "not LINE:CHARACTER: ".toList ++ s

/-! ## Options -/

/-- The options of the command. -/
inductive CommandOption
  | help
  | docs
  | json
  | verbose
deriving DecidableEq

namespace CommandOption

/-- Every option. -/
def all : List CommandOption := [.help, .docs, .json, .verbose]

/-- The long form, without its dashes. -/
def longName : CommandOption → List Char
  | .help => "help".toList
  | .docs => "docs".toList
  | .json => "json".toList
  | .verbose => "verbose".toList

/-- The letter of the short form. -/
def ofLetter? : Char → Option CommandOption
  | 'h' => some .help
  | 'v' => some .verbose
  | _ => none

/-- The option needs a value. -/
def takesValue : CommandOption → Bool
  | .docs => true
  | _ => false

end CommandOption

/-- Why arguments are refused. -/
inductive UsageError
  | missingArgument
  | unrecognized (arguments : List (List Char))
  | ambiguousOption (s : List Char)
  | missingValue (o : CommandOption)
  | unexpectedValue (o : CommandOption)
  | badPosition (s : List Char)
deriving DecidableEq

/-- The text of the complaint. -/
def UsageError.message : UsageError → List Char
  | .missingArgument => "the arguments FILE and LINE:CHARACTER are required".toList
  | .unrecognized arguments =>
    "unrecognized arguments: ".toList ++ List.intercalate [' '] arguments
  | .ambiguousOption s => "ambiguous option: ".toList ++ s
  | .missingValue o => "expected one argument: --".toList ++ o.longName
  | .unexpectedValue o => "expected no argument: --".toList ++ o.longName
  | .badPosition s => Position.complaint s

/-- Reads `LINE:CHARACTER`, or complains about the whole text. -/
def Position.read (s : List Char) : Except UsageError Position :=
  match parse? s with
  | some position => .ok position
  | none => .error (.badPosition s)

/-! ## Words -/

/-- The argument after which nothing is an option. -/
def separator : List Char := ['-', '-']

/-- What stands where a text is due: a text, or a separator in its place. -/
inductive Given
  | text (s : List Char)
  | gap
deriving DecidableEq

/-- An argument where a text is due. -/
def Given.ofArgument (s : List Char) : Given := if s = separator then .gap else .text s

/-- What an argument is in front of `--`: a plain argument, an option with the value attached to
it, a short option with what is attached to its letter, or an option that the command does not
have. -/
inductive Word
  | plain (s : List Char)
  | option (o : CommandOption) (value : Option (List Char))
  | short (o : CommandOption) (attached : List Char)
  | unknown (s : List Char)
deriving DecidableEq

namespace Word

/-- A minus sign and digits, with or without a decimal point. A line feed may follow. -/
def isNegativeNumber : List Char → Bool
  | '-' :: s =>
    let isDigit := fun c => (digitValue? c).isSome
    let body := if s.getLast? = some '\n' then s.dropLast else s
    let fraction := body.dropWhile isDigit
    match fraction with
    | [] => !body.isEmpty
    | '.' :: decimals => !decimals.isEmpty && decimals.all isDigit
    | _ => false
  | _ => false

/-- An argument that starts with a dash but names no option. -/
def other (s : List Char) : Word :=
  if isNegativeNumber s || s.contains ' ' then .plain s else .unknown s

/-- A long option: a name, exact or shortened, and maybe a value. -/
def long (s name : List Char) (value : Option (List Char)) : Except UsageError Word :=
  match CommandOption.all.filter fun o => name.isPrefixOf o.longName with
  | [] => .ok (other s)
  | [o] => .ok (.option o value)
  | _ => .error (.ambiguousOption s)

/-- What an argument is. -/
def ofArgument (s : List Char) : Except UsageError Word :=
  match s with
  | '-' :: '-' :: rest =>
    let value := match rest.dropWhile (· != '=') with
      | [] => none
      | _ :: value => some value
    long s (rest.takeWhile (· != '=')) value
  | '-' :: c :: rest =>
    match CommandOption.ofLetter? c with
    | none => .ok (other s)
    | some o => .ok (.short o rest)
  | _ => .ok (.plain s)

end Word

/-! ## Invocations -/

/-- What the command is asked to do. -/
structure Invocation where
  /-- The Dockerfile, `-` for standard input. -/
  file : List Char
  /-- The place, `none` if there is a gap instead. -/
  position : Option Position
  /-- The value of `--docs`, `none` without that option. -/
  docs : Option Given
  json : Bool
  verbose : Nat
deriving DecidableEq

/-- The arguments taken so far. -/
structure Reading where
  file : Option (List Char)
  /-- The place, `some none` if there is a gap instead. -/
  place : Option (Option Position)
  /-- Whether the last argument was a plain one. -/
  afterPlain : Bool
  docs : Option Given
  json : Bool
  verbose : Nat
  help : Bool
  /-- The arguments that nothing asks for. -/
  unrecognized : List (List Char)

namespace Reading

/-- Before the first argument. -/
def initial : Reading := ⟨none, none, false, none, false, 0, false, []⟩

/-- Puts an argument aside. -/
def putAside (r : Reading) (s : List Char) : Reading :=
  { r with unrecognized := r.unrecognized ++ [s] }

/-- Takes what stands where a plain argument is due: the Dockerfile first, then the place. -/
def addGiven (r : Reading) (given : Given) : Except UsageError Reading :=
  match r.file, r.place, given with
  | none, _, .text s => .ok { r with file := some s }
  | some _, none, .text s => (Position.read s).map fun p => { r with place := some (some p) }
  | some _, some _, .text s => .ok (r.putAside s)
  | _, none, .gap => .ok { r with place := some none }
  | _, some _, .gap => .ok (r.putAside separator)

/-- Takes a plain argument. -/
def addPlain (r : Reading) (s : List Char) : Except UsageError Reading :=
  ({ r with afterPlain := true } : Reading).addGiven (.text s)

/-- Takes an option, with its value if it needs one. -/
def addOption (r : Reading) (o : CommandOption) (value : List Char) : Reading :=
  match o with
  | .help => { r with help := true, afterPlain := false }
  | .docs => { r with docs := some (.ofArgument value), afterPlain := false }
  | .json => { r with json := true, afterPlain := false }
  | .verbose => { r with verbose := r.verbose + 1, afterPlain := false }

/-- The letters behind that of the short option `o`, options themselves. -/
def letters (o : CommandOption) : List Char → Except UsageError (List CommandOption)
  | [] => .ok []
  | c :: rest =>
    match CommandOption.ofLetter? c with
    | none => .error (.unexpectedValue o)
    | some next => (letters next rest).map (next :: ·)

/-- What is attached to the short option `o`: more letters. An equals sign in front of them is
passed over, but then there must be some. -/
def attachedLetters (o : CommandOption) : List Char → Except UsageError (List CommandOption)
  | ['='] => .error (.unexpectedValue o)
  | '=' :: rest => letters o rest
  | rest => letters o rest

/-- Takes a short option and those attached to it. -/
def addShort (r : Reading) (o : CommandOption) (attached : List Char) :
    Except UsageError Reading :=
  (attachedLetters o attached).map fun os => (o :: os).foldl (fun r o => r.addOption o []) r

/-- Takes the words one after the other, up to a request for help. -/
def run (r : Reading) (words : List Word) : Except UsageError Reading :=
  if r.help then .ok r
  else
    match words with
    | [] => .ok r
    | .plain s :: more => do (← r.addPlain s).run more
    | .unknown s :: more => ({ r with afterPlain := false }.putAside s).run more
    | .short o attached :: more => do (← r.addShort o attached).run more
    | .option o (some value) :: more =>
      if o.takesValue then (r.addOption o value).run more else .error (.unexpectedValue o)
    | .option o none :: more =>
      if o.takesValue then
        match more with
        | .plain value :: more => (r.addOption o value).run more
        | _ => .error (.missingValue o)
      else (r.addOption o []).run more

/-- What follows the separator. Unless the separator comes right after a plain argument, the first
of it is a text whatever it is. -/
def restGiven (afterPlain : Bool) : List (List Char) → List Given
  | [] => []
  | s :: rest => (if afterPlain then .ofArgument s else .text s) :: rest.map Given.ofArgument

/-- Takes what follows the separator. Right after an option nothing asks for the separator itself if
both plain arguments are there already. -/
def addRest (r : Reading) (rest : List (List Char)) : Except UsageError Reading :=
  let r' := if r.place.isSome && !r.afterPlain then r.putAside separator else r
  (restGiven r.afterPlain rest).foldlM addGiven r'

/-- What the arguments taken so far ask for. -/
def invocation (r : Reading) : Except UsageError Invocation :=
  match r.file, r.place with
  | some file, some position =>
    if r.unrecognized.isEmpty then .ok ⟨file, position, r.docs, r.json, r.verbose⟩
    else .error (.unrecognized r.unrecognized)
  | _, _ => .error .missingArgument

/-- Takes the arguments from the separator on, if there are any, and answers what all arguments ask
for. -/
def finish (r : Reading) : List (List Char) → Except UsageError Invocation
  | [] => r.invocation
  | _ :: rest => do (← r.addRest rest).invocation

end Reading

/-- A request for help, or an invocation. -/
inductive Request
  | help
  | hover (i : Invocation)
deriving DecidableEq

/-- Reads the arguments of the command. -/
def Request.parse (arguments : List (List Char)) : Except UsageError Request := do
  let words ← (arguments.takeWhile (· != separator)).mapM Word.ofArgument
  let r ← Reading.initial.run words
  if r.help then return .help
  return .hover (← r.finish (arguments.dropWhile (· != separator)))

end Dockerfile
