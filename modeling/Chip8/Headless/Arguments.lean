import Chip8.Decimal
import Chip8.Machine.Basic

/-!
# Command line arguments

An argument is a long option `--name` or `--name=value`, a short option such as
`-m`, `-mVALUE` or `-m=VALUE`, the separator `--` behind which every argument
is plain, or plain. An option that lacks its value takes the next argument,
unless that looks like an option. A lone `-` is plain.

Exactly one plain argument is needed, the path of the program, and no option
may be given twice.

Left out are the options that ask for help or for the version, `--help`, `-h`,
`--version` and `-V`, which end the program successfully: here they count as
options that are not known.
-/

namespace Chip8.Headless

/-- The options that have a value. -/
inductive Setting where
  | speed
  | maxSteps
  | seed
  | leftShiftFlag
  | edge
  | timerDivider
deriving DecidableEq, Repr

namespace Setting

/-- The long name of an option. -/
def name : Setting → String
  | speed => "speed"
  | maxSteps => "max-steps"
  | seed => "seed"
  | leftShiftFlag => "shl-carry"
  | edge => "sprite-edge"
  | timerDivider => "timer-divider"

/-- All options that have a value. -/
def all : List Setting := [speed, maxSteps, seed, leftShiftFlag, edge, timerDivider]

/-- The option with a long name. -/
def ofName? (text : String) : Option Setting := all.find? fun s => s.name == text

/-- The option with a short name. -/
def ofLetter? : Char → Option Setting
  | 's' => some speed
  | 'm' => some maxSteps
  | _ => none

end Setting

/-- The long name of the option that asks for a dump; it has no value. -/
def dumpName : String := "dump"

/-- What is wrong with a command line. -/
inductive UsageError where
  | unknownOption (argument : String)
  | missingValue (setting : Setting)
  | unexpectedValue (name : String)
  | invalidValue (setting : Setting) (value : String)
  | repeated (name : String)
  | missingProgram
  | extraProgram (path : String)
deriving DecidableEq, Repr

/-- The text that reports what is wrong. -/
def UsageError.message : UsageError → String
  | .unknownOption argument => s!"unexpected argument '{argument}'"
  | .missingValue setting => s!"a value is required for '--{setting.name}'"
  | .unexpectedValue name => s!"no value is allowed for '--{name}'"
  | .invalidValue setting value => s!"invalid value '{value}' for '--{setting.name}'"
  | .repeated name => s!"'--{name}' cannot be used multiple times"
  | .missingProgram => "the path of a program is required"
  | .extraProgram path => s!"unexpected argument '{path}'"

/-- One argument by itself. -/
inductive Argument where
  | separator
  | plain (text : String)
  | dump
  | setting (setting : Setting) (value : Option String)
deriving DecidableEq, Repr

namespace Argument

/-- The long option written behind two dashes. -/
def ofLong (text : List Char) : Except UsageError Argument :=
  let name := String.ofList (text.takeWhile (· != '='))
  let value := match text.dropWhile (· != '=') with
    | [] => none
    | _ :: value => some (String.ofList value)
  if name = dumpName then
    if value.isSome then .error (.unexpectedValue name) else .ok .dump
  else match Setting.ofName? name with
    | some s => .ok (.setting s value)
    | none => .error (.unknownOption name)

/-- The short option written behind one dash. -/
def ofShort (letter : Char) (text : List Char) : Except UsageError Argument :=
  match Setting.ofLetter? letter with
  | none => .error (.unknownOption (String.singleton letter))
  | some s =>
    .ok (.setting s (match text with
      | [] => none
      | '=' :: value => some (String.ofList value)
      | value => some (String.ofList value)))

/-- The argument that a text is. -/
def ofText (text : String) : Except UsageError Argument :=
  match text.toList with
  | ['-', '-'] => .ok .separator
  | '-' :: '-' :: name => ofLong name
  | '-' :: letter :: rest => ofShort letter rest
  | _ => .ok (.plain text)

/-- Whether a text can be no value of the option before it. -/
def looksLikeOption (text : String) : Bool :=
  match text.toList with
  | '-' :: _ :: _ => true
  | _ => false

end Argument

/-- What a command line says, in order. -/
inductive Item where
  | program (path : String)
  | dump
  | setting (setting : Setting) (value : String)
deriving DecidableEq, Repr

namespace Item

/-- What the arguments say. -/
def ofArguments : List String → Except UsageError (List Item)
  | [] => .ok []
  | text :: rest => do
    match ← Argument.ofText text with
    | .separator => return rest.map .program
    | .plain path => return .program path :: (← ofArguments rest)
    | .dump => return .dump :: (← ofArguments rest)
    | .setting s (some value) => return .setting s value :: (← ofArguments rest)
    | .setting s none =>
      match rest with
      | [] => throw (.missingValue s)
      | value :: rest =>
        if Argument.looksLikeOption value then throw (.missingValue s)
        else return .setting s value :: (← ofArguments rest)

/-- The path, if the item is one. -/
def path? : Item → Option String
  | .program path => some path
  | _ => none

/-- The value that the item gives to an option, if it does. -/
def value? (s : Setting) : Item → Option String
  | .setting t value => if t = s then some value else none
  | _ => none

end Item

/-- What a run without a display is asked to do. -/
structure Options where
  /-- The path of the program. -/
  program : String
  /-- Steps per second; zero counts as one. -/
  speed : Nat
  /-- The number of steps after which the run ends. -/
  maxSteps : Option Nat
  config : Config
  /-- Whether to print the display at the end. -/
  dump : Bool
deriving DecidableEq, Repr

namespace Options

/-- The speed if no other is asked for. -/
def defaultSpeed : Nat := 700

/-- The value given to an option, if any; it may be given once. -/
def value (items : List Item) (s : Setting) : Except UsageError (Option String) :=
  match items.filterMap (Item.value? s) with
  | [] => .ok none
  | [value] => .ok (some value)
  | _ => .error (.repeated s.name)

/-- The value given to an option as `read` understands it, or else the default. -/
def valueAs {α : Type} (items : List Item) (s : Setting) (read : List Char → Option α)
    (default : α) : Except UsageError α := do
  match ← value items s with
  | none => return default
  | some text =>
    match read text.toList with
    | some a => return a
    | none => throw (.invalidValue s text)

/-- A number from zero up to but not including a bound, written with any sign. -/
def signedBelow (bound : Nat) (text : List Char) : Option Nat :=
  (Decimal.signed? text).bind fun n => if 0 ≤ n ∧ n < bound then some n.toNat else none

/-- A number below a bound, written without a minus sign. -/
def unsignedBelow (bound : Nat) (text : List Char) : Option Nat :=
  (Decimal.unsigned? text).filter (· < bound)

/-- The left shift flag of a name. -/
def leftShiftFlag? (text : List Char) : Option LeftShiftFlag :=
  match String.ofList text with
  | "msb" => some .mostSignificant
  | "lsb" => some .leastSignificant
  | _ => none

/-- The edge rule of a name. -/
def edge? (text : List Char) : Option EdgeRule :=
  match String.ofList text with
  | "wrap" => some .wrap
  | "clip" => some .clip
  | _ => none

/-- Whether a dump is asked for; it may be asked for once. -/
def dumpOf (items : List Item) : Except UsageError Bool :=
  if 1 < items.count .dump then .error (.repeated dumpName) else .ok (.dump ∈ items)

/-- The path of the one program. -/
def programOf (items : List Item) : Except UsageError String :=
  match items.filterMap Item.path? with
  | [] => .error .missingProgram
  | [path] => .ok path
  | _ :: path :: _ => .error (.extraProgram path)

/-- The options that the items ask for. -/
def ofItems (items : List Item) : Except UsageError Options := do
  let program ← programOf items
  let speed ← valueAs items .speed (signedBelow UInt32.size) defaultSpeed
  let maxSteps ← valueAs items .maxSteps (fun t => (unsignedBelow UInt64.size t).map some) none
  let seed ← valueAs items .seed
    (fun t => (unsignedBelow UInt64.size t).map (some <| UInt64.ofNat ·)) none
  let leftShiftFlag ← valueAs items .leftShiftFlag leftShiftFlag? .mostSignificant
  let edge ← valueAs items .edge edge? .wrap
  let timerDivider ← valueAs items .timerDivider
    (fun t => (signedBelow UInt8.size t).map UInt8.ofNat) 1
  let dump ← dumpOf items
  return { program, speed, maxSteps, dump, config := { seed, leftShiftFlag, edge, timerDivider } }

/-- The options that the arguments ask for. -/
def parse (arguments : List String) : Except UsageError Options := do
  ofItems (← Item.ofArguments arguments)

end Options

end Chip8.Headless
