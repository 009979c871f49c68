/-!
A ledger counts the bytes in use against a limit. A charge is always entered, also one that
breaches the limit; the breach is then reported. A refund of more than is in use empties the
account and is reported. A ledger that ignores breaches counts nothing.
-/

namespace BoundedMerge

inductive BreachPolicy
  /-- Report it and end the program. -/
  | abort
  /-- Report it and go on. -/
  | warn
  /-- Keep no account at all. -/
  | ignore
deriving DecidableEq, Repr

def BreachPolicy.name : BreachPolicy → String
  | abort => "abort"
  | warn => "warn"
  | ignore => "ignore"

def BreachPolicy.ofName? (name : String) : Option BreachPolicy :=
  [abort, warn, ignore].find? fun p => p.name == name

inductive LedgerError
  | limitExceeded (requested used limit : Nat)
  | underflow (requested used : Nat)
deriving DecidableEq, Repr

def LedgerError.message : LedgerError → String
  | limitExceeded requested used limit =>
    s!"allocation of {requested} bytes exceeds memory limit (used: {used}, limit: {limit})"
  | underflow requested used =>
    s!"deallocation of {requested} bytes exceeds used memory {used}"

structure Ledger where
  limit : Nat
  policy : BreachPolicy
  used : Nat := 0
deriving DecidableEq, Repr

namespace Ledger

/-- The limit of a ledger for which none was chosen: 64 MiB. -/
def defaultLimit : Nat := 64 * 1024 * 1024

instance : Inhabited Ledger := ⟨{ limit := defaultLimit, policy := .warn }⟩

def available (l : Ledger) : Nat := l.limit - l.used

def charge (l : Ledger) (bytes : Nat) : Except LedgerError Unit × Ledger :=
  if l.policy = .ignore then (.ok (), l)
  else
    let used := l.used + bytes
    (if l.limit < used then .error (.limitExceeded bytes used l.limit) else .ok (),
      { l with used })

/-- Takes `bytes` off the account, down to zero at most. -/
def refund (l : Ledger) (bytes : Nat) : Except LedgerError Unit × Ledger :=
  if l.policy = .ignore then (.ok (), l)
  else
    (if l.used < bytes then .error (.underflow bytes l.used) else .ok (),
      { l with used := l.used - bytes })

end Ledger

end BoundedMerge
