import TemplateCompiler.Number.Integer

/-!
# Flags

Flags stand anywhere among the arguments of a command. A long flag is written
`--name` or `--name=value`, and a flag with a letter also `-l`, where several
letters may follow one dash. A switch needs no value; any other flag takes the
rest of its word, or else the next argument. Two dashes alone end the flags.
-/

namespace TemplateCompiler

/-- What can be set on the command line. -/
inductive Flag where
  | config | verbose | moduleMode | split | out | sourceMap | jobs | noCache | emit | help
deriving DecidableEq, Repr, Inhabited

/-- What a flag holds. -/
inductive FlagKind where
  | text | switch | count
deriving DecidableEq, Repr, Inhabited

/-- A value for a flag. -/
inductive FlagValue where
  | text (value : Bytes)
  | switch (value : Bool)
  | count (value : Int)
deriving DecidableEq, Repr, Inhabited

namespace Flag

def name : Flag → Bytes
  | .config => "config"
  | .verbose => "verbose"
  | .moduleMode => "module"
  | .split => "split"
  | .out => "out"
  | .sourceMap => "source-map"
  | .jobs => "jobs"
  | .noCache => "no-cache"
  | .emit => "emit"
  | .help => "help"

def letter? : Flag → Option UInt8
  | .verbose => some 0x76
  | .out => some 0x6f
  | .jobs => some 0x6a
  | .help => some 0x68
  | _ => none

def kind : Flag → FlagKind
  | .config | .out | .emit => .text
  | .jobs => .count
  | .verbose | .moduleMode | .split | .sourceMap | .noCache | .help => .switch

def isSwitch (f : Flag) : Bool := f.kind == .switch

def shown (f : Flag) : Bytes :=
  match f.letter? with
  | some letter => "-" ++ [letter] ++ ", --" ++ f.name
  | none => "--" ++ f.name

def named? (flags : List Flag) (name : Bytes) : Option Flag := flags.find? (·.name == name)

def lettered? (flags : List Flag) (letter : UInt8) : Option Flag :=
  flags.find? (·.letter? == some letter)

end Flag

/-- What is wrong with the flags among some arguments. -/
inductive FlagError where
  | badForm (word : Bytes)
  | unknown (name : Bytes)
  | unknownLetter (letter : UInt8) (word : Bytes)
  | valueMissing (name : Bytes)
  | letterValueMissing (letter : UInt8) (word : Bytes)
  | invalid (flag : Flag) (value reason : Bytes)
deriving DecidableEq, Repr, Inhabited

namespace FlagError

/-- A letter in quotes. Of a letter outside of ASCII the first byte of its
encoding is shown. -/
def quotedLetter (letter : UInt8) : Bytes :=
  quotedPoint ((Utf8.encode letter.toNat).headD letter).toNat

def message : FlagError → Bytes
  | .badForm word => "bad flag syntax: " ++ word
  | .unknown name => "unknown flag: --" ++ name
  | .unknownLetter letter word =>
    "unknown shorthand flag: " ++ quotedLetter letter ++ " in -" ++ word
  | .valueMissing name => "flag needs an argument: --" ++ name
  | .letterValueMissing letter word =>
    "flag needs an argument: " ++ quotedLetter letter ++ " in -" ++ word
  | .invalid flag value reason =>
    "invalid argument " ++ quoted value ++ " for " ++ quoted flag.shown ++ " flag: " ++ reason

end FlagError

abbrev FlagSetting := Flag × FlagValue

namespace Flag

def read (f : Flag) (value : Bytes) : Except FlagError FlagSetting :=
  match f.kind with
  | .text => .ok (f, .text value)
  | .switch =>
    match Truth.read value with
    | .ok b => .ok (f, .switch b)
    | .error fault => .error (.invalid f value (fault.message "ParseBool" value))
  | .count =>
    match Integer.read value with
    | .ok n => .ok (f, .count n)
    | .error fault => .error (.invalid f value (fault.message "ParseInt" value))

/-- What a switch without a value is set to. -/
def on (f : Flag) : FlagSetting := (f, .switch true)

/-- Reads a long flag without its dashes. `next` is the argument behind it, and
the answer tells whether that was its value. -/
def readLong (flags : List Flag) (word : Bytes) (next : Option Bytes) :
    Except FlagError (List FlagSetting × Bool) :=
  let (name, tail) := word.span (· != Byte.equals)
  if name.isEmpty || name.head? == some Byte.minus then
    .error (.badForm ("--" ++ word))
  else match named? flags name, tail, next with
    | none, _, _ => .error (.unknown name)
    | some f, _ :: value, _ => return ([← f.read value], false)
    | some f, [], next =>
      if f.isSwitch then .ok ([f.on], false)
      else match next with
        | some value => return ([← f.read value], true)
        | none => .error (.valueMissing name)

/-- How the letters for a test runner begin; they are passed over. -/
def testLetters : Bytes := "test."

/-- Reads flags that are given by letters. `next` is the argument behind them,
and the answer tells whether that was the value of the last. -/
def readLetters (flags : List Flag) (next : Option Bytes) :
    Bytes → Except FlagError (List FlagSetting × Bool)
  | [] => .ok ([], false)
  | letter :: rest =>
    let word := letter :: rest
    if (Bytes.dropPrefix? testLetters word).isSome then .ok ([], false)
    else match lettered? flags letter with
      | none => .error (.unknownLetter letter word)
      | some f =>
        match rest, next with
        | Byte.equals :: b :: value, _ => return ([← f.read (b :: value)], false)
        | rest, next =>
          if f.isSwitch then do
            let (settings, used) ← readLetters flags next rest
            .ok (f.on :: settings, used)
          else match rest, next with
            | _ :: _, _ => return ([← f.read rest], false)
            | [], some value => return ([← f.read value], true)
            | [], none => .error (.letterValueMissing letter word)

end Flag

/-- The arguments of a command: the flags with their values, and the rest. -/
structure Arguments where
  settings : List FlagSetting := []
  rest : List Bytes := []
deriving DecidableEq, Repr, Inhabited

namespace Arguments

def read (flags : List Flag) (words : List Bytes) : Except FlagError Arguments :=
  match words with
  | [] => .ok {}
  | word :: words =>
    let flagged (result : Except FlagError (List FlagSetting × Bool)) := do
      let (settings, used) ← result
      let more ← read flags (if used then words.drop 1 else words)
      pure { more with settings := settings ++ more.settings }
    match word with
    | [Byte.minus, Byte.minus] => .ok { rest := words }
    | Byte.minus :: Byte.minus :: long => flagged (Flag.readLong flags long words.head?)
    | Byte.minus :: b :: letters => flagged (Flag.readLetters flags words.head? (b :: letters))
    | _ => do
      let more ← read flags words
      pure { more with rest := word :: more.rest }
termination_by words.length
decreasing_by
  all_goals simp_wf
  all_goals (try split) <;> (try simp) <;> omega

def value? (a : Arguments) (f : Flag) : Option FlagValue := a.settings.reverse.lookup f

def text? (a : Arguments) (f : Flag) : Option Bytes :=
  match a.value? f with
  | some (.text value) => some value
  | _ => none

def switch? (a : Arguments) (f : Flag) : Option Bool :=
  match a.value? f with
  | some (.switch value) => some value
  | _ => none

def count? (a : Arguments) (f : Flag) : Option Int :=
  match a.value? f with
  | some (.count value) => some value
  | _ => none

def isOn (a : Arguments) (f : Flag) : Bool := (a.switch? f).getD false

end Arguments

end TemplateCompiler
