import BoundedMerge.Tape.Error

/-! Why a merge failed. -/

namespace BoundedMerge

inductive MergeError
  /-- No temporary file could be made. -/
  | scratch (e : DiskError)
  | tape (e : TapeError)
  | insufficientMemory (available required : Nat)
  | invalidArity (inputs : Nat)
  | noMainMemoryOperation
  | uninitialized
  /-- The strategy ended the merge before all inputs were used up. -/
  | inputsRemaining
deriving DecidableEq, Repr

def MergeError.message : MergeError → String
  | scratch e => s!"temporary directory or file not created: {e.message}"
  | tape e => s!"stream operation failed: {e.message}"
  | insufficientMemory available required =>
    s!"insufficient memory: {available} bytes available, at least {required} bytes required"
  | invalidArity inputs => s!"invalid merge arity: {inputs}"
  | noMainMemoryOperation => "merge policy has no main memory operation"
  | uninitialized => "merge policy is not initialized"
  | inputsRemaining => "merge finished with unconsumed input"

def MergeError.causes : MergeError → List String
  | scratch e => [e.message]
  | tape e => e.message :: e.causes
  | _ => []

end BoundedMerge
