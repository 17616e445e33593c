import PDA.Format.Load

/-!
# Arguments of the command line

`[OPTION...] [CONFIG] [INPUT...]`, where options may stand anywhere before a `--`. An option that
takes a value is written `--option VALUE` or `--option=VALUE`; no option may be given twice. The
first argument that is no option is the file that holds the automaton, all others are inputs for it.
-/

namespace PDA.CommandLine

/-- An option of the command line. -/
inductive Opt
  /-- Say more. -/
  | verbose
  /-- Choose the token for epsilon. -/
  | epsilon
  /-- Choose a number of random inputs. -/
  | random
  /-- Choose the seed for the random inputs. -/
  | seed
  /-- Choose the text after every random input. -/
  | endMarker
  deriving DecidableEq

/-- The option with a name, as it stands on the command line. -/
def Opt.ofName? : String → Option Opt
  | "-v" | "--verbose" => some verbose
  | "--epsilon" => some epsilon
  | "--random" => some random
  | "--seed" => some seed
  | "--end-marker" => some endMarker
  | _ => none

/-- What is wrong with a command line. -/
inductive UsageError
  /-- There is no such option. -/
  | unknownOption (arg : String)
  /-- An option that takes no value has one. -/
  | unexpectedValue (arg : String)
  /-- An option that takes a value has none. -/
  | missingValue (arg : String)
  /-- An option is given twice. -/
  | repeated (opt : Opt)
  /-- A value should be a number of 64 bits. -/
  | notANumber (value : String)
  deriving DecidableEq

/-- One thing that a command line says. -/
inductive Setting
  /-- An option and its value, which is empty if the option takes none. -/
  | option (opt : Opt) (value : String)
  /-- An argument that is no option. -/
  | positional (arg : String)
  deriving DecidableEq

/-- Whether an argument can only be meant as an option. -/
def looksLikeOption (arg : String) : Bool :=
  match arg.toList with
  | '-' :: _ :: _ => true
  | _ => false

/-- Take an argument apart at its first equals sign. -/
def splitValue (arg : String) : String × Option String :=
  match arg.toList.dropWhile (· ≠ '=') with
  | [] => (arg, none)
  | _ :: value => (String.ofList (arg.toList.takeWhile (· ≠ '=')), some (String.ofList value))

/-- What a command line says, in order. -/
def settings : List String → Except UsageError (List Setting)
  | [] => .ok []
  | "--" :: args => .ok (args.map .positional)
  | arg :: args =>
    if looksLikeOption arg then
      match Opt.ofName? (splitValue arg).1, (splitValue arg).2, args with
      | none, _, _ => .error (.unknownOption arg)
      | some .verbose, some _, _ => .error (.unexpectedValue arg)
      | some .verbose, none, args => (settings args).map (.option .verbose "" :: ·)
      | some opt, some value, args => (settings args).map (.option opt value :: ·)
      | some _, none, [] => .error (.missingValue arg)
      | some opt, none, value :: args =>
        if looksLikeOption value then .error (.missingValue arg)
        else (settings args).map (.option opt value :: ·)
    else (settings args).map (.positional arg :: ·)

/-- The value that the settings give to an option. -/
def valueOf (opt : Opt) (ss : List Setting) : Except UsageError (Option String) :=
  let values := ss.filterMap fun
    | .option o value => if o = opt then some value else none
    | .positional _ => none
  match values with
  | [] => .ok none
  | [value] => .ok (some value)
  | _ => .error (.repeated opt)

/-- A number of 64 bits in decimal digits, perhaps with a plus sign before them. -/
def readWord (text : String) : Except UsageError UInt64 :=
  let digits : List Char := match text.toList with
    | '+' :: digits => digits
    | digits => digits
  let n := digits.foldl (fun n d => 10 * n + (d.toNat - '0'.toNat)) 0
  if digits ≠ [] ∧ digits.all Char.isDigit ∧ n < UInt64.size then .ok n.toUInt64
  else .error (.notANumber text)

/-- What the command line asks for. -/
structure Arguments where
  /-- Whether to print the automaton, the notices and the traces of rejected inputs. -/
  verbose : Bool := false
  /-- The token that denotes epsilon. -/
  epsilon : String := Format.defaultEpsilon
  /-- The number of random inputs. -/
  random : Nat := 0
  /-- The seed for the random inputs. -/
  seed : UInt64 := 1
  /-- The text after every random input. -/
  endMarker : String := "$"
  /-- The path of the file that holds the automaton. -/
  config : String := "inputs/expressions.pda"
  /-- The inputs to test; if there are none, `defaultInputs` are tested. -/
  inputs : List String := []
  deriving DecidableEq

/-- Read a command line, given without the name of the program. -/
def Arguments.parse (args : List String) : Except UsageError Arguments := do
  let ss ← settings args
  let defaults : Arguments := {}
  let verbose ← valueOf .verbose ss
  let epsilon ← valueOf .epsilon ss
  let random ← (← valueOf .random ss).mapM readWord
  let seed ← (← valueOf .seed ss).mapM readWord
  let endMarker ← valueOf .endMarker ss
  let positionals := ss.filterMap fun
    | .option _ _ => none
    | .positional arg => some arg
  return {
    verbose := verbose.isSome
    epsilon := epsilon.getD defaults.epsilon
    random := random.elim defaults.random UInt64.toNat
    seed := seed.getD defaults.seed
    endMarker := endMarker.getD defaults.endMarker
    config := positionals.head?.getD defaults.config
    inputs := positionals.tail }

/-- The usage error in words. -/
def UsageError.message : UsageError → String
  | unknownOption arg => "unknown option: " ++ arg
  | unexpectedValue arg => "option takes no value: " ++ arg
  | missingValue arg => "option needs a value: " ++ arg
  | repeated _ => "an option is given twice"
  | notANumber value => "not a number: " ++ value

end PDA.CommandLine
