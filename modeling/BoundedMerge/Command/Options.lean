import BoundedMerge.Tape.Basic
import BoundedMerge.Text.ByteAmount

/-!
The options of the command line. An option is given by its long name after two hyphens, or by its
short name, a single letter after one hyphen. Its value is the rest of the argument, with or without
an equals sign after a short name, or else the next argument if that does not look like an option.
-/

namespace BoundedMerge

inductive Mode
  | sort
  | shuffle
deriving DecidableEq, Repr

inductive Direction
  | ascending
  | descending
deriving DecidableEq, Repr

structure Options where
  input : String
  output : String
  mode : Mode := .sort
  direction : Direction := .ascending
  seed : Option UInt64 := none
  logLevel : Level := .info
  threads : Option Nat := none
  /-- Where temporary files are made. -/
  scratch : Option String := none
  memory : Nat
  blockSize : Nat
  onBreach : BreachPolicy := .warn

inductive OptionName
  | input | output | mode | direction | seed | logLevel | threads | scratch | memory | blockSize
  | onBreach
deriving DecidableEq, Repr

namespace OptionName

def all : List OptionName :=
  [input, output, mode, direction, seed, logLevel, threads, scratch, memory, blockSize, onBreach]

def long : OptionName → String
  | input => "input"
  | output => "output"
  | mode => "mode"
  | direction => "sort"
  | seed => "seed"
  | logLevel => "loglevel"
  | threads => "threads"
  | scratch => "tmp-dir"
  | memory => "memory"
  | blockSize => "block-size"
  | onBreach => "on-exceed"

def short? : OptionName → Option Char
  | input => some 'i'
  | output => some 'o'
  | mode => some 'm'
  | direction => some 's'
  | logLevel => some 'l'
  | threads => some 't'
  | scratch => some 'd'
  | memory => some 'M'
  | blockSize => some 'b'
  | seed | onBreach => none

def ofLong? (name : String) : Option OptionName := all.find? (·.long == name)

def ofShort? (c : Char) : Option OptionName := all.find? (·.short? == some c)

end OptionName

inductive OptionError
  | unknown (argument : String)
  | valueMissing (o : OptionName)
  | repeated (o : OptionName)
  | missing (o : OptionName)
  | invalid (o : OptionName) (value : String)
  /-- No failure: the options were asked for. -/
  | helpWanted
deriving DecidableEq, Repr

def OptionError.message : OptionError → String
  | unknown argument => s!"unexpected argument: {argument}"
  | valueMissing o => s!"option without a value: --{o.long}"
  | repeated o => s!"option given more than once: --{o.long}"
  | missing o => s!"option missing: --{o.long}"
  | invalid o value => s!"invalid value of --{o.long}: {value}"
  | helpWanted => " ".intercalate (OptionName.all.map fun o => s!"[--{o.long} VALUE]")

inductive Argument
  | option (o : OptionName) (value : Option String)
  | help
  /-- Two hyphens alone: no option follows. -/
  | close
  | other
deriving DecidableEq, Repr

namespace Argument

def ofLong (text : List Char) : Argument :=
  let name := text.takeWhile (· ≠ '=')
  match OptionName.ofLong? (String.ofList name), text.drop name.length with
  | some o, [] => .option o none
  | some o, _ :: value => .option o (some (String.ofList value))
  | none, [] => if String.ofList name = "help" then .help else .other
  | none, _ => .other

def ofShort (letter : Char) (text : List Char) : Argument :=
  match OptionName.ofShort? letter, text with
  | some o, [] => .option o none
  | some o, '=' :: value => .option o (some (String.ofList value))
  | some o, value => .option o (some (String.ofList value))
  | none, _ => if letter = 'h' then .help else .other

def ofText (text : String) : Argument :=
  match text.toList with
  | ['-', '-'] => .close
  | '-' :: '-' :: rest => ofLong rest
  | '-' :: letter :: rest => ofShort letter rest
  | _ => .other

/-- Whether an argument can be a value: it has no hyphen in front, or is nothing but a hyphen. -/
def isValue (text : String) : Bool := text == "-" || text.toList.head? != some '-'

end Argument

namespace Options

abbrev Entry := OptionName × Option String

def entries : List String → Except OptionError (List Entry)
  | [] => .ok []
  | text :: rest =>
    match Argument.ofText text with
    | .option o (some value) => (entries rest).map ((o, some value) :: ·)
    | .option o none =>
      let value := rest.head?.filter Argument.isValue
      (entries (if value.isSome then rest.tail else rest)).map ((o, value) :: ·)
    | .close =>
      match rest with
      | [] => .ok []
      | argument :: _ => .error (.unknown argument)
    | .help => .error .helpWanted
    | .other => .error (.unknown text)
termination_by arguments => arguments.length
decreasing_by
  · simp
  · split <;> simp only [List.length_tail, List.length_cons] <;> omega

/-- The value of an option, which must not be given twice. -/
def text? (given : List Entry) (o : OptionName) : Except OptionError (Option String) :=
  match given.filter (·.1 == o) with
  | [] => .ok none
  | [(_, some value)] => .ok (some value)
  | [(_, none)] => .error (.valueMissing o)
  | _ => .error (.repeated o)

def required (given : List Entry) (o : OptionName) : Except OptionError String := do
  match ← text? given o with
  | some text => return text
  | none => throw (.missing o)

def value? {α : Type} (given : List Entry) (o : OptionName) (read : String → Option α) :
    Except OptionError (Option α) := do
  match ← text? given o with
  | none => return none
  | some text =>
    match read text with
    | some a => return some a
    | none => throw (.invalid o text)

def value {α : Type} (given : List Entry) (o : OptionName) (read : String → Option α)
    (default : α) : Except OptionError α := return (← value? given o read).getD default

def readMode? : String → Option Mode
  | "sort" => some .sort
  | "shuffle" => some .shuffle
  | _ => none

def readDirection? : String → Option Direction
  | "asc" => some .ascending
  | "desc" => some .descending
  | _ => none

def readLevel? : String → Option Level
  | "off" => some .off
  | "error" => some .error
  | "warn" => some .warn
  | "info" => some .info
  | "debug" => some .debug
  | "trace" => some .trace
  | _ => none

def readWord? (text : String) : Option Nat :=
  match Numeral.read .word64 text.toList with
  | .ok n => some n.toNat
  | .error _ => none

def readAmount? (text : String) : Option Nat :=
  (ByteAmount.read? text.toList).filter (0 < ·)

def ofArguments (arguments : List String) : Except OptionError Options := do
  let given ← entries arguments
  return {
    input := ← required given .input
    output := ← required given .output
    mode := ← value given .mode readMode? .sort
    direction := ← value given .direction readDirection? .ascending
    seed := (← value? given .seed readWord?).map Nat.toUInt64
    logLevel := ← value given .logLevel readLevel? .info
    threads := ← value? given .threads readWord?
    scratch := ← text? given .scratch
    memory := ← value given .memory readAmount? Ledger.defaultLimit
    blockSize := ← value given .blockSize readAmount? Tape.defaultBlockSize
    onBreach := ← value given .onBreach BreachPolicy.ofName? .warn }

end Options

end BoundedMerge
