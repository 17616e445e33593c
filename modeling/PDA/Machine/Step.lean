import PDA.Automaton.Basic

/-!
# Configurations and traces

A configuration is the state of a machine between two characters of its input. A trace records a
run: one `consumed` step for every character that was looked at, and one terminal step at the end,
`final` if the whole input was consumed and `rejected` if the machine got stuck.
-/

namespace PDA

/-- The state of a machine between two characters. -/
@[ext]
structure Configuration where
  /-- The control state. -/
  state : State
  /-- The stack, bottom first. -/
  stack : List Symbol := []
  deriving DecidableEq

namespace Configuration

/-- The symbol on top of the stack; `none` if the stack is empty. -/
def top (k : Configuration) : Option Symbol := k.stack.getLast?

/-- The stack as a text: its symbols one after the other, bottom first. -/
def stackText (k : Configuration) : String := String.join (k.stack.map Symbol.text)

/-- Take a rule: go to its target, drop the top of the stack if the rule pops, and push its
symbols. -/
def take (k : Configuration) (r : Rule) : Configuration where
  state := r.target
  stack := (if r.pop.isSome then k.stack.dropLast else k.stack) ++ r.push

end Configuration

/-- One entry of a trace. -/
inductive Step
  /-- In configuration `config` the character `symbol` is looked at. -/
  | consumed (config : Configuration) (symbol : Char)
  /-- In configuration `config` no rule applies to the character `symbol`. -/
  | rejected (config : Configuration) (symbol : Char)
  /-- The input ends in configuration `config`. -/
  | final (config : Configuration)
  deriving DecidableEq

namespace Step

/-- The configuration in which the step happens. -/
def config : Step → Configuration
  | consumed k _ | rejected k _ | final k => k

/-- The character that the step is about; the end of the input has none. -/
def symbol? : Step → Option Char
  | consumed _ c | rejected _ c => some c
  | final _ => none

/-- Whether the step ends a trace. -/
def isTerminal : Step → Bool
  | consumed .. => false
  | rejected .. | final _ => true

/-- The step as a line of text. -/
def render : Step → String
  | consumed k c =>
    "(" ++ k.state.name ++ ", " ++ String.singleton c ++ ", " ++ k.stackText ++ ")"
  | rejected k c =>
    "Rejected at state " ++ k.state.name ++ " with input symbol " ++ String.singleton c ++
      " and stack " ++ k.stackText
  | final k => "(" ++ k.state.name ++ ", end, " ++ k.stackText ++ ")"

end Step

/-- A trace as text: one step per line, with no line feed at the end. -/
def renderTrace (trace : List Step) : String := "\n".intercalate (trace.map Step.render)

/-- What a finished run says about its input. -/
@[ext]
structure Outcome where
  /-- Whether the input is accepted. -/
  accepted : Bool
  /-- The steps of the run. -/
  trace : List Step
  deriving DecidableEq

/-- The outcome of a run that made one more step before. -/
def Outcome.after (s : Step) (o : Outcome) : Outcome := { o with trace := s :: o.trace }

end PDA
