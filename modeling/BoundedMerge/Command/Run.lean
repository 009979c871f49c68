import BoundedMerge.Command.Lines
import BoundedMerge.Command.Options
import BoundedMerge.Layout.Order
import BoundedMerge.Merge.Formation

/-!
The program: it reads a file with an integer on each line, sorts or shuffles the integers within
the memory it is given, and writes them to another file. The run reports its status, the text of
the output file if that was made, and the lines of its log. The first failure ends it, and nothing
is written then.
-/

namespace BoundedMerge

/-- The layout of the records that are sorted: signed integers of 64 bits. -/
abbrev Number : Layout := .scalar (.signed .w64)

namespace Command

inductive Failure
  | inputNotOpened (e : DiskError)
  | outputNotMade (e : DiskError)
  | notStarted (e : MergeError)
  | noInputTape (e : MergeError)
  | notRead (e : DiskError)
  | notText
  | noInteger (line : Nat) (e : NumeralError)
  | notLoaded (e : TapeError)
  | noOutputTape (e : MergeError)
  | notProcessed (e : MergeError)
  | noResult (e : TapeError)
  | notSaved (e : DiskError)
  | notFlushed (e : DiskError)
deriving DecidableEq, Repr

def Failure.message : Failure → String
  | inputNotOpened e => s!"input file opening error: {e.message}"
  | outputNotMade e => s!"output file creation error: {e.message}"
  | notStarted e => s!"engine initialization error: {e.message}"
  | noInputTape e => s!"input stream creation error: {e.message}"
  | notRead e => s!"input reading error: {e.message}"
  | notText => "input reading error: stream did not contain valid UTF-8"
  | noInteger line e => s!"line {line}: integer expected: {e.message}"
  | notLoaded e => s!"input stream writing error: {e.message}"
  | noOutputTape e => s!"output stream creation error: {e.message}"
  | notProcessed e => s!"data processing error: {e.message}"
  | noResult e => s!"result stream error: {e.message}"
  | notSaved e => s!"data saving error: {e.message}"
  | notFlushed e => s!"data flushing error: {e.message}"

def Failure.line (f : Failure) : String := Level.error.name ++ " " ++ f.message

abbrev JobM := ExceptT Failure SiteM

def orFail {ε α : Type} (failure : ε → Failure) (work : SiteM (Except ε α)) : JobM α := do
  match ← (work : SiteM _) with
  | .ok a => return a
  | .error e => throw (failure e)

def onTape {α : Type} (failure : TapeError → Failure) (tape : Tape Number.Value)
    (work : TapeM Number.Value α) : JobM (α × Tape Number.Value) := do
  let (outcome, tape) ← (work tape : SiteM _)
  match outcome with
  | .ok a => return (a, tape)
  | .error e => throw (failure e)

/-- Writes the integers of the lines to the tape. The first line has the given number. -/
def load (tape : Tape Number.Value) (number : Nat) :
    List (List UInt8) → JobM (Tape Number.Value)
  | [] => return tape
  | line :: lines =>
    match Lines.read line with
    | .error .notText => throw .notText
    | .error (.noInteger e) => throw (.noInteger number e)
    | .ok none => load tape (number + 1) lines
    | .ok (some n) => do
      let (_, tape) ← onTape .notLoaded tape (Tape.write (BitVec.ofInt _ n))
      load tape (number + 1) lines

def arrange (o : Options) (m : Merger) (seed : UInt64) :
    ExceptT MergeError (StateT (Transfer Number.Value) SiteM) Stats :=
  match o.mode, o.direction with
  | .sort, .ascending => m.processWith { cmp := Number.compare : Ordered Number.Value }
  | .sort, .descending =>
    m.processWith { cmp := fun a b => Number.compare b a, handleSize := 64 : Ordered Number.Value }
  | .shuffle, _ => m.shuffle (KeyStream.ofSeed seed)

def job (o : Options) (seed : UInt64) (file : Except DiskError (List UInt8)) :
    JobM (List Int) := do
  let m : Merger := { blockSize := o.blockSize }
  let input ← orFail .noInputTape (m.newTape Number.Value)
  let bytes ← orFail .notRead (return file)
  let input ← load input 1 (Lines.split bytes)
  let output ← orFail .noOutputTape (m.newTape Number.Value)
  let (outcome, t) ← ((arrange o m seed) { input, output } : SiteM _)
  match outcome with
  | .error e => throw (.notProcessed e)
  | .ok stats =>
    Site.report (.finished t.output.size stats.runs stats.passes)
    let _ ← t.input.close
    let (numbers, _) ← onTape .noResult t.output do Tape.seek 0; Tape.readRest
    return numbers.map BitVec.toInt

structure Report where
  status : Nat
  /-- The text of the output file, if it was made. -/
  output : Option String
  log : List String
deriving DecidableEq, Repr

def shown (o : Options) (events : List Event) (failure : Option Failure) : List String :=
  let events := events.filter fun e => e.level.rank ≤ o.logLevel.rank
  let failure := failure.filter fun _ => Level.error.rank ≤ o.logLevel.rank
  events.map Event.line ++ failure.toList.map Failure.line

def failed (o : Options) (f : Failure) (output : Option String) (events : List Event) : Report where
  status := 1
  output
  log := shown o events (some f)

/-- The files and directories that a run works on, the seed of a shuffle for which none was chosen,
and the memory of the machine. A file is opened before it is read, and made, with nothing in it,
before it is saved. -/
structure Surroundings (m : Type → Type) where
  openInput : String → m (Except DiskError Unit)
  makeOutput : String → m (Except DiskError Unit)
  openScratch : Option String → m (Except DiskError Scratch)
  seed : m UInt64
  readInput : String → m (Except DiskError (List UInt8))
  saveOutput : String → String → m (Except DiskError Unit)
  memory : Memory := {}

def preamble (o : Options) : List Event := [.starting o.memory o.blockSize, .threads o.threads]

/-- The status of a run that a halt ends. One that gets no more memory is aborted by a signal, and
a shell reports the number of the signal above 128. -/
def haltStatus : Halt → Nat
  | .breach => 1
  | .exhausted _ => 134
  | _ => 101

def work (o : Options) (memory : Memory) (scratch : Scratch) (seed : UInt64)
    (file : Except DiskError (List UInt8)) : Report :=
  let site : Site := {
    Site.real { limit := o.memory, policy := o.onBreach } scratch with
    memory
    journal := (preamble o).toArray }
  match (job o seed file).run site with
  | (.ok (.ok numbers), site) =>
    { status := 0, output := some (Lines.render numbers), log := shown o site.journal.toList none }
  | (.ok (.error f), site) => failed o f (some "") site.journal.toList
  | (.error h, site) =>
    { status := haltStatus h, output := some "", log := shown o site.journal.toList none }

def bufferSize : Nat := 8192

/-- The failure to save a text. One that the buffer holds is refused when the buffer is emptied at
the end, and a longer one before. -/
def saveFailure (text : String) (e : DiskError) : Failure :=
  if text.utf8ByteSize ≤ bufferSize then .notFlushed e else .notSaved e

def save {m : Type → Type} [Monad m] (o : Options) (s : Surroundings m) (r : Report) :
    m Report := do
  match r.status, r.output with
  | 0, some text =>
    match ← s.saveOutput o.output text with
    | .ok _ => return r
    | .error e =>
      let lines := shown o [] (some (saveFailure text e))
      return { status := 1, output := some "", log := r.log ++ lines }
  | _, _ => return r

def run {m : Type → Type} [Monad m] (o : Options) (s : Surroundings m) : m Report := do
  match ← s.openInput o.input with
  | .error e => return failed o (.inputNotOpened e) none []
  | .ok _ =>
    match ← s.makeOutput o.output with
    | .error e => return failed o (.outputNotMade e) none []
    | .ok _ =>
      match ← s.openScratch o.scratch with
      | .error e => return failed o (.notStarted (.scratch e)) (some "") (preamble o)
      | .ok scratch =>
        let seed ← match o.seed with
          | some seed => pure seed
          | none => s.seed
        let file ← s.readInput o.input
        save o s (work o s.memory scratch seed file)

end Command

end BoundedMerge
