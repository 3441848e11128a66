import TemplateCompiler.CommandLine.Flag
import TemplateCompiler.Text.EditDistance

/-!
# Commands

The command is the first word on the command line that is neither a flag nor
the value of one; flags may stand in front of it. Which words are values is
told there by the flags that every command has, so any other flag in front of
the command is taken to have a value. A word that is no command is refused,
with the commands that it may be meant for.
-/

namespace TemplateCompiler

/-- What the program can be asked to do. -/
inductive Command where
  /-- Compile templates and write the files. -/
  | compile
  /-- Compile templates and list what they need. -/
  | check
  /-- List the partials. -/
  | partials
  /-- Explain the commands. -/
  | help
deriving DecidableEq, Repr, Inhabited

namespace Command

def sharedFlags : List Flag := [.config, .verbose]

def flags : Command → List Flag
  | .compile => [.moduleMode, .split, .out, .sourceMap, .jobs, .noCache, .emit] ++ sharedFlags
      ++ [.help]
  | .check => [.moduleMode] ++ sharedFlags ++ [.help]
  | .partials | .help => sharedFlags ++ [.help]

def leastArguments : Command → Nat
  | .compile | .check => 1
  | .partials | .help => 0

def named : List (Bytes × Command) := [("compile", .compile), ("check", .check),
  ("partials", .partials), ("help", .help), ("completion", .help)]

def ofName? (name : Bytes) : Option Command := named.lookup name

/-- The commands that are suggested for other words. -/
def suggestible : List Bytes := ["compile", "check", "partials", "completion"]

/-- Whether a command is suggested for a word: it begins with the word, or two
edits make it the word. Case does not matter. -/
def isSuggestedFor (word name : Bytes) : Bool :=
  let word := word.map Byte.toLower
  editDistance word name ≤ 2 || (Bytes.dropPrefix? word name).isSome

def suggestions (word : Bytes) : List Bytes := suggestible.filter (isSuggestedFor word)

end Command

/-- Why a command line asks for nothing that can be done. -/
inductive UsageError where
  | unknownCommand (word : Bytes)
  | flag (cause : FlagError)
  | tooFewArguments (least given : Nat)
deriving DecidableEq, Repr, Inhabited

namespace UsageError

def suggestionLine (name : Bytes) : Bytes := "\t" ++ name ++ "\n"

def suggested (names : List Bytes) : Bytes :=
  if names.isEmpty then [] else "\n\nDid you mean this?\n" ++ names.flatMap suggestionLine

def message : UsageError → Bytes
  | .unknownCommand word =>
    "unknown command " ++ quoted word ++ " for \"tmplc\"" ++ suggested (Command.suggestions word)
  | .flag cause => cause.message
  | .tooFewArguments least given =>
    "requires at least " ++ Bytes.decimal least ++ " arg(s), only received " ++ Bytes.decimal given

end UsageError

/-- A command with its arguments. -/
structure Invocation where
  command : Command
  arguments : Arguments
deriving DecidableEq, Repr, Inhabited

namespace Invocation

def endOfFlags : Bytes := [Byte.minus, Byte.minus]

def looksLikeFlag (word : Bytes) : Bool := word.head? == some Byte.minus

/-- Whether the word behind this one is its value, as far as that shows when
only the flags in `flags` are known. -/
def takesNext (flags : List Flag) (word : Bytes) : Bool :=
  if word.any (· == Byte.equals) then false
  else match word with
    | Byte.minus :: Byte.minus :: name => !(Flag.named? flags name).any Flag.isSwitch
    | [Byte.minus, letter] => !(Flag.lettered? flags letter).any Flag.isSwitch
    | _ => false

def firstWord? (flags : List Flag) : List Bytes → Option Bytes
  | [] => none
  | word :: words =>
    if word == endOfFlags then none
    else if takesNext flags word then
      match words with
      | _ :: next :: more => firstWord? flags (next :: more)
      | _ => none
    else if word.isEmpty || looksLikeFlag word then firstWord? flags words
    else some word

/-- The words without the first one that is neither a flag nor the value of
one and equals `target`. -/
def without (flags : List Flag) (target : Bytes) : List Bytes → List Bytes
  | [] => []
  | word :: words =>
    if word == endOfFlags then word :: words
    else if takesNext flags word then
      match words with
      | [] => [word]
      | value :: more => word :: value :: without flags target more
    else if word == target then words
    else word :: without flags target words

/-- The command on a command line and the words that are left for it. Without
a command the commands are explained. -/
def find (words : List Bytes) : Except UsageError (Command × List Bytes) :=
  match firstWord? Command.sharedFlags words with
  | none => .ok (.help, words)
  | some word =>
    match Command.ofName? word with
    | none => .error (.unknownCommand word)
    | some command => .ok (command, without Command.sharedFlags word words)

/-- Reads a command line. A command that is asked for help explains the
commands. -/
def read (words : List Bytes) : Except UsageError Invocation := do
  let (command, words) ← find words
  let arguments ← (Arguments.read command.flags words).mapError .flag
  if arguments.isOn .help then return { command := .help, arguments }
  if arguments.rest.length < command.leastArguments then
    throw (.tooFewArguments command.leastArguments arguments.rest.length)
  return { command, arguments }

end Invocation

end TemplateCompiler
