import BoundedMerge.Disk

/-! Why a tape could not do what it was asked for. -/

namespace BoundedMerge

inductive TapeError
  /-- The cursor is at the end, or fewer records follow it than were asked for. -/
  | endOfTape
  | beforeStart
  | seekOutOfRange (index size : Nat)
  | disk (e : DiskError)
deriving DecidableEq, Repr

def TapeError.message : TapeError → String
  | endOfTape => "end of stream reached"
  | beforeStart => "beginning of stream reached"
  | seekOutOfRange index size => s!"seek to {index} beyond stream length {size}"
  | disk e => s!"stream I/O operation failed: {e.message}"

def TapeError.causes : TapeError → List String
  | disk e => [e.message]
  | _ => []

end BoundedMerge
