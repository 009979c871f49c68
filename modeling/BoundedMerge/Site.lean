import BoundedMerge.Ledger
import BoundedMerge.Tape.Error

/-!
The site is what all parts of one session share: the ledger of main memory, the scratch directory
in which temporary files are made, and the journal of what was reported. Work at a site may halt:
a breach of the memory limit ends the program under `BreachPolicy.abort`, and so does a broken
assertion. The site survives a halt, so the journal can still be read.
-/

namespace BoundedMerge

inductive Level
  | off | error | warn | info | debug | trace
deriving DecidableEq, Repr

namespace Level

def name : Level → String
  | off => "OFF"
  | error => "ERROR"
  | warn => "WARN"
  | info => "INFO"
  | debug => "DEBUG"
  | trace => "TRACE"

def rank : Level → Nat
  | off => 0
  | error => 1
  | warn => 2
  | info => 3
  | debug => 4
  | trace => 5

end Level

inductive Event
  | limitSet (bytes : Nat)
  /-- The limit was exceeded and the program ends. -/
  | fatalBreach (e : LedgerError)
  | breach (e : LedgerError)
  /-- A tape that was closed could not save its last block. -/
  | lostBlock (e : TapeError)
  | inMemory (records : Nat)
  | distributing (records capacity : Nat)
  | runsFormed (runs : Nat)
  | pass (number runs arity : Nat)
  | finalPass (runs : Nat)
  /-- The program begins its work. -/
  | starting (limit blockSize : Nat)
  /-- The number of threads that was asked for, if any. -/
  | threads (count : Option Nat)
  /-- The program has done its work. -/
  | finished (records runs passes : Nat)
deriving DecidableEq, Repr

namespace Event

def level : Event → Level
  | fatalBreach _ | lostBlock _ => .error
  | breach _ => .warn
  | starting .. | threads _ | finished .. => .info
  | _ => .debug

def message : Event → String
  | limitSet bytes => s!"memory limit set to {bytes} bytes"
  | fatalBreach e | breach e => s!"memory manager: {e.message}"
  | lostBlock e => s!"stream block write-back failed: {e.message}"
  | inMemory records => s!"processing input in main memory (records: {records})"
  | distributing records capacity =>
    s!"distributing {records} records into runs of {capacity} records"
  | runsFormed runs => s!"run formation done (runs: {runs})"
  | pass number runs arity => s!"merge pass {number} (runs: {runs}, arity: {arity})"
  | finalPass runs => s!"final merge pass (runs: {runs})"
  | starting limit blockSize =>
    s!"initializing merge engine (memory limit: {limit} bytes, block size: {blockSize} bytes)"
  | threads (some count) => s!"initializing thread-pool (threads: {count})"
  | threads none => "initializing thread-pool (threads: default)"
  | finished records runs passes =>
    s!"done (records: {records}, runs: {runs}, merge passes: {passes})"

def line (e : Event) : String := e.level.name ++ " " ++ e.message

end Event

inductive Assertion
  | selectionFull
  | batchFull
  | emptyRecord
  | inputCountChanged
  | inputsLeftOver
  | countsDiffer
deriving DecidableEq, Repr

def Assertion.message : Assertion → String
  | selectionFull => "selection heap capacity exceeded"
  | batchFull => "run buffer overflow"
  | emptyRecord => "records must have a non-zero size"
  | inputCountChanged => "input count changed during merge"
  | inputsLeftOver => "empty heap but more input"
  | countsDiffer => "merge done, input_count"

inductive Halt
  /-- The memory limit was exceeded. -/
  | breach
  | assertion (a : Assertion)
  /-- An index outside its range, or a division by zero. -/
  | outOfRange
  /-- A size that the machine cannot count. -/
  | oversized (bytes : Nat)
  /-- The machine has no memory left for a piece of this size. -/
  | exhausted (bytes : Nat)
  /-- The number of steps allowed was used up. -/
  | stalled
deriving DecidableEq, Repr

/-- A directory for temporary files. The `n`-th file to be made is the disk `supply n`, unless the
directory refuses to make it. -/
structure Scratch where
  supply : Nat → Except DiskError Disk
  made : Nat := 0

namespace Scratch

def reliable : Scratch where
  supply _ := .ok {}

def limited (longest : Nat) : Scratch where
  supply _ := .ok (.ofFile longest [])

def missing : Scratch where
  supply _ := .error .noSuchFile

end Scratch

/-- The memory of the machine. The piece that is asked for after `asked` others is given if
`gives asked bytes`. -/
structure Memory where
  gives : Nat → Nat → Bool := fun _ _ => true
  asked : Nat := 0

structure Site where
  ledger : Ledger
  scratch : Scratch := .reliable
  memory : Memory := {}
  journal : Array Event := #[]
  /-- The bits of a size in bytes, if the machine counts sizes with a fixed number of them. -/
  sizeBits : Option Nat := none

abbrev SiteM := ExceptT Halt (StateM Site)

namespace Site

def report (e : Event) : SiteM Unit :=
  modify fun site => { site with journal := site.journal.push e }

def halt {α : Type} (h : Halt) : SiteM α := throw h

def assert (holds : Bool) (a : Assertion) : SiteM Unit :=
  if holds then pure () else halt (.assertion a)

def real (ledger : Ledger) (scratch : Scratch) : Site :=
  { ledger, scratch, sizeBits := some 64 }

def count (bytes : Nat) : SiteM Unit := do
  if (← get).sizeBits.any fun bits => 1 <<< bits ≤ bytes then halt (.oversized bytes)

/-- Asks for a piece of memory, unless it is one of no bytes. -/
def allocate (bytes : Nat) : SiteM Unit := do
  let given ← modifyGet fun site =>
    (bytes = 0 || site.memory.gives site.memory.asked bytes,
      { site with memory := { site.memory with asked := site.memory.asked + 1 } })
  if !given then halt (.exhausted bytes)

/-- The machine gives a piece of memory of `bytes`: one takes less than half of what it counts. -/
def provide (bytes : Nat) : SiteM Unit := do
  count (2 * bytes)
  allocate bytes

/-- The value at hand, or a halt because an index was out of range. -/
def demand {α : Type} : Option α → SiteM α
  | some a => pure a
  | none => halt .outOfRange

def setLimit (bytes : Nat) : SiteM Unit := do
  report (.limitSet bytes)
  modify fun site => { site with ledger := { site.ledger with limit := bytes } }

def charge (bytes : Nat) : SiteM (Except LedgerError Unit) := do
  let ledger := (← get).ledger
  if ledger.policy ≠ .ignore then count (ledger.used + bytes)
  modifyGet fun site =>
    let (outcome, ledger) := site.ledger.charge bytes
    (outcome, { site with ledger })

def refund (bytes : Nat) : SiteM (Except LedgerError Unit) :=
  modifyGet fun site =>
    let (outcome, ledger) := site.ledger.refund bytes
    (outcome, { site with ledger })

def newFile : SiteM (Except DiskError Disk) :=
  modifyGet fun site =>
    (site.scratch.supply site.scratch.made,
      { site with scratch := { site.scratch with made := site.scratch.made + 1 } })

end Site

/-- Bytes charged to the ledger until they are given back. -/
structure Lease where
  bytes : Nat
deriving DecidableEq, Repr

namespace Lease

/-- Charges `bytes`. A breach is reported, and ends the program if the ledger says so. -/
def take (bytes : Nat) : SiteM Lease := do
  let policy := (← get).ledger.policy
  if policy = .ignore then return ⟨0⟩
  match ← Site.charge bytes with
  | .ok _ => return ⟨bytes⟩
  | .error e =>
    if policy = .abort then
      Site.report (.fatalBreach e)
      Site.halt .breach
    else
      Site.report (.breach e)
      return ⟨bytes⟩

def release (lease : Lease) : SiteM Unit := do
  if lease.bytes = 0 then return
  match ← Site.refund lease.bytes with
  | .ok _ => return
  | .error e => Site.report (.breach e)

end Lease

end BoundedMerge
