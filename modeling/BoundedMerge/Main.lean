import BoundedMerge.Command.Run

/-! The program as it is run: files are read and written, and the log goes to standard error. -/

namespace BoundedMerge

def DiskError.ofError : IO.Error → DiskError
  | .noFileOrDirectory .. => .noSuchFile
  | .permissionDenied .. => .permissionDenied
  | .inappropriateType _ 20 _ => .notDirectory
  | .inappropriateType _ 21 _ => .isDirectory
  | .invalidArgument _ 22 _ => .invalidArgument
  | .invalidArgument _ 36 _ => .nameTooLong
  | .resourceExhausted _ 28 _ => .noSpace
  | e => .other e.toString

namespace Command

def attempt {α : Type} (work : IO α) : IO (Except DiskError α) := do
  try
    return .ok (← work)
  catch e =>
    return .error (.ofError e)

/-- A directory is fit for temporary files if a directory can be made in it. The empty path leads
to the working directory. -/
def openScratch (path : String) : IO (Except DiskError Scratch) := attempt do
  let now ← IO.monoNanosNow
  let directory := if path.isEmpty then "." else path
  let place := s!"{directory}/merge-{now}"
  IO.FS.createDir place
  IO.FS.removeDirAll place
  return .limited (lengthBound - 1)

def surroundings : Surroundings IO where
  openInput path := attempt do discard (IO.FS.Handle.mk path .read)
  makeOutput path := attempt do discard (IO.FS.Handle.mk path .write)
  openScratch
    | none => return .ok (.limited (lengthBound - 1))
    | some path => openScratch path
  seed := return (LittleEndian.decode (← IO.getRandomBytes 8).data.toList).toUInt64
  readInput path := attempt do return (← IO.FS.readBinFile path).data.toList
  saveOutput path text := attempt do
    let file ← IO.FS.Handle.mk path .write
    file.putStr text
    file.flush

end Command

end BoundedMerge

open BoundedMerge in
def main (arguments : List String) : IO UInt32 := do
  match Options.ofArguments arguments with
  | .error .helpWanted =>
    IO.println OptionError.helpWanted.message
    return 0
  | .error e =>
    IO.eprintln e.message
    return 2
  | .ok o =>
    let report ← Command.run o Command.surroundings
    report.log.forM IO.eprintln
    return report.status.toUInt32
