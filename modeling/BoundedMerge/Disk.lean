import BoundedMerge.SparseBytes

/-!
A disk holds a finite run of bytes and serves three requests: read a range, write a range and
set the length. It may refuse a request, and a refused request changes no byte. A read past the
last byte is cut short, and a write past it fills the gap with zeros. The disk of a real file has
a bound to its length: a write across the bound stores the bytes before it and then fails.
-/

namespace BoundedMerge

inductive DiskError
  | noSuchFile
  | permissionDenied
  | notDirectory
  | isDirectory
  | invalidArgument
  | fileTooLarge
  | noSpace
  | nameTooLong
  /-- A length that is no file length at all. -/
  | noLength
  /-- The file at `path` cannot be cut into records of `width` bytes. -/
  | ragged (path : String) (size width : Nat)
  | other (text : String)
deriving DecidableEq, Repr

def DiskError.message : DiskError → String
  | noSuchFile => "No such file or directory (os error 2)"
  | permissionDenied => "Permission denied (os error 13)"
  | notDirectory => "Not a directory (os error 20)"
  | isDirectory => "Is a directory (os error 21)"
  | invalidArgument => "Invalid argument (os error 22)"
  | fileTooLarge => "File too large (os error 27)"
  | noSpace => "No space left on device (os error 28)"
  | nameTooLong => "File name too long (os error 36)"
  | noLength => "number too large to fit in target type"
  | ragged path size width =>
    s!"file {path} size {size} is not a multiple of record size {width}"
  | other text => text

/-- What is asked of a disk, offsets and counts in bytes. -/
inductive Request
  | read (offset count : Nat)
  | write (offset count : Nat)
  | resize (size : Nat)
deriving DecidableEq, Repr

/-- File lengths are counted by words of 64 bits with a sign. -/
def lengthBound : Nat := 1 <<< 63

/-- The bytes of a disk, and which requests it refuses. The refusal may depend on how many
requests were made before, so that a request refused once may be served when tried again. -/
structure Disk where
  bytes : SparseBytes := {}
  /-- The most bytes that the disk takes, if there is a bound. -/
  longest : Option Nat := none
  refuse : Nat → Request → Option DiskError := fun _ _ => none
  requests : Nat := 0

namespace Disk

def ofBytes (bytes : List UInt8) : Disk := { bytes := .ofList bytes }

/-- A file that takes no more than `longest` bytes. -/
def ofFile (longest : Nat) (bytes : List UInt8) : Disk :=
  { ofBytes bytes with longest := some longest }

/-- A device that looks like an empty file and has no room for a single byte. -/
def full : Disk where
  refuse _
    | .read .. => none
    | .write .. => some .noSpace
    | .resize size => some (if lengthBound ≤ size then .noLength else .invalidArgument)

def Reliable (d : Disk) : Prop := d.longest = none ∧ ∀ n r, d.refuse n r = none

/-- Why a request does not fit a disk that takes at most `longest` bytes. -/
def misfit? (longest : Nat) : Request → Option DiskError
  | .read offset _ | .write offset _ => if longest < offset then some .invalidArgument else none
  | .resize size =>
    if lengthBound ≤ size then some .noLength
    else if longest < size then some .fileTooLarge
    else none

def serve {α : Type} (d : Disk) (r : Request)
    (serve : SparseBytes → Except DiskError α × SparseBytes) : Except DiskError α × Disk :=
  let after := { d with requests := d.requests + 1 }
  match (d.refuse d.requests r).or (d.longest.bind fun longest => misfit? longest r) with
  | some e => (.error e, after)
  | none =>
    let (outcome, bytes) := serve after.bytes
    (outcome, { after with bytes })

/-- At most `count` bytes from `offset` on, fewer where the disk ends. -/
def read (offset count : Nat) (d : Disk) : Except DiskError (Array UInt8) × Disk :=
  d.serve (.read offset count) fun bytes => (.ok (bytes.read offset count), bytes)

def fitting (offset : Nat) (data : List UInt8) (d : Disk) : List UInt8 :=
  match d.longest with
  | none => data
  | some longest => data.take (longest - offset)

def write (offset : Nat) (data : List UInt8) (d : Disk) : Except DiskError Unit × Disk :=
  let stored := d.fitting offset data
  d.serve (.write offset data.length) fun bytes =>
    (if stored.length < data.length then .error .fileTooLarge else .ok (),
      bytes.write offset stored)

def resize (size : Nat) (d : Disk) : Except DiskError Unit × Disk :=
  d.serve (.resize size) fun bytes => (.ok (), bytes.resize size)

def append (tail : List UInt8) (d : Disk) : Disk :=
  { d with bytes := d.bytes.write d.bytes.size tail }

end Disk

end BoundedMerge
