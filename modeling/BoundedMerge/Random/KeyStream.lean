/-!
A stream of words from a key: the block function of the ChaCha cipher with twelve rounds, applied
to a 64-bit block counter that starts at zero, with an empty nonce. A seed of 64 bits is stretched
to a key of eight words by a permuted congruential generator.
-/

namespace BoundedMerge

class WordSource (γ : Type) where
  next : γ → UInt32 × γ

namespace ChaCha

abbrev State := Vector UInt32 16

def rotateLeft (x : UInt32) (n : UInt32) : UInt32 := (x <<< n) ||| (x >>> (32 - n))

def quarter (s : State) (a b c d : Fin 16) : State :=
  let s := s.set a (s[a] + s[b])
  let s := s.set d (rotateLeft (s[d] ^^^ s[a]) 16)
  let s := s.set c (s[c] + s[d])
  let s := s.set b (rotateLeft (s[b] ^^^ s[c]) 12)
  let s := s.set a (s[a] + s[b])
  let s := s.set d (rotateLeft (s[d] ^^^ s[a]) 8)
  let s := s.set c (s[c] + s[d])
  s.set b (rotateLeft (s[b] ^^^ s[c]) 7)

/-- A round on the columns of the state and one on its diagonals. -/
def doubleRound (s : State) : State :=
  let s := quarter s 0 4 8 12
  let s := quarter s 1 5 9 13
  let s := quarter s 2 6 10 14
  let s := quarter s 3 7 11 15
  let s := quarter s 0 5 10 15
  let s := quarter s 1 6 11 12
  let s := quarter s 2 7 8 13
  quarter s 3 4 9 14

def initial (key : Vector UInt32 8) (counter : UInt64) : State :=
  #v[0x61707865, 0x3320646e, 0x79622d32, 0x6b206574,
    key[0], key[1], key[2], key[3], key[4], key[5], key[6], key[7],
    counter.toUInt32, (counter >>> 32).toUInt32, 0, 0]

/-- The words of a block: six double rounds, added to the start. -/
def block (key : Vector UInt32 8) (counter : UInt64) : State :=
  let start := initial key counter
  start.zipWith (· + ·) (Nat.repeat doubleRound 6 start)

end ChaCha

/-- The words of a key stream that are still to come: those left of the last block, then the
blocks from `counter` on. -/
structure KeyStream where
  key : Vector UInt32 8
  counter : UInt64 := 0
  pending : List UInt32 := []

namespace KeyStream

def stretch (state : UInt64) : UInt32 × UInt64 :=
  let state := state * 6364136223846793005 + 11634580027462260723
  let mixed := (((state >>> 18) ^^^ state) >>> 27).toUInt32
  let turn := (state >>> 59).toUInt32
  ((mixed >>> turn) ||| (mixed <<< ((32 - turn) % 32)), state)

def stretchWords : Nat → UInt64 → List UInt32
  | 0, _ => []
  | n + 1, state =>
    let (word, state) := stretch state
    word :: stretchWords n state

def ofSeed (seed : UInt64) : KeyStream :=
  let words := stretchWords 8 seed
  { key := Vector.ofFn fun i => words.getD i 0 }

def next (k : KeyStream) : UInt32 × KeyStream :=
  match k.pending with
  | word :: pending => (word, { k with pending })
  | [] =>
    let words := ChaCha.block k.key k.counter
    (words[0], { k with counter := k.counter + 1, pending := words.toList.tail })

instance : WordSource KeyStream where
  next := next

end KeyStream

end BoundedMerge
