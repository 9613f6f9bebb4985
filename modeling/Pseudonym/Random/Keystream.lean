import Pseudonym.Random.Source

/-!
# The keystream of a block cipher

The reproducible source is the keystream of ChaCha with twelve rounds. A block mixes sixteen 32-bit words: four constants, a key
of eight words, a 64-bit block counter and two zero words. Its sixteen output words are taken in pairs, the first word of a pair
being the low half. A seed is spread over the key by a linear congruential step whose state is permuted on the way out.
-/

namespace Pseudonym

/-- A key of eight words. -/
abbrev Key := Vector UInt32 8

namespace Key

/-- One step of the congruential generator. -/
def step (state : UInt64) : UInt64 := state * 6364136223846793005 + 11634580027462260723

/-- A word turned right by a number of bits. -/
def rotateRight (x k : UInt32) : UInt32 := if k = 0 then x else (x >>> k) ||| (x <<< (32 - k))

/-- The word that a state of the generator puts out: its upper bits folded together, turned by its highest five. -/
def output (state : UInt64) : UInt32 :=
  rotateRight (((state >>> 18) ^^^ state) >>> 27).toUInt32 (state >>> 59).toUInt32

/-- The states that follow a seed. -/
def states : Nat → UInt64 → List UInt64
  | 0, _ => []
  | n + 1, s => step s :: states n (step s)

/-- As many states are made as are asked for. -/
theorem length_states (n : Nat) (s : UInt64) : (states n s).length = n := by
  induction n generalizing s with
  | zero => rfl
  | succ n ih => simp [states, ih]

/-- The key that a seed is spread over. -/
def ofSeed (seed : UInt64) : Key := ⟨((states 8 seed).map output).toArray, by simp [length_states]⟩

end Key

namespace Cipher

/-- The sixteen words that a block is made from or consists of. -/
abbrev State := Vector UInt32 16

/-- A word turned left by a number of bits between 1 and 31. -/
def rotateLeft (x k : UInt32) : UInt32 := (x <<< k) ||| (x >>> (32 - k))

/-- The quarter round on four words of the state. -/
def quarterRound (s : State) (a b c d : Fin 16) : State :=
  let s := s.set a (s[a] + s[b])
  let s := s.set d (rotateLeft (s[d] ^^^ s[a]) 16)
  let s := s.set c (s[c] + s[d])
  let s := s.set b (rotateLeft (s[b] ^^^ s[c]) 12)
  let s := s.set a (s[a] + s[b])
  let s := s.set d (rotateLeft (s[d] ^^^ s[a]) 8)
  let s := s.set c (s[c] + s[d])
  s.set b (rotateLeft (s[b] ^^^ s[c]) 7)

/-- A round over the columns of the state and one over its diagonals. -/
def doubleRound (s : State) : State :=
  let s := quarterRound s 0 4 8 12
  let s := quarterRound s 1 5 9 13
  let s := quarterRound s 2 6 10 14
  let s := quarterRound s 3 7 11 15
  let s := quarterRound s 0 5 10 15
  let s := quarterRound s 1 6 11 12
  let s := quarterRound s 2 7 8 13
  quarterRound s 3 4 9 14

/-- The state that a block starts from. -/
def start (key : Key) (counter : UInt64) : State :=
  #v[0x61707865, 0x3320646e, 0x79622d32, 0x6b206574,
    key[0], key[1], key[2], key[3], key[4], key[5], key[6], key[7],
    counter.toUInt32, (counter >>> 32).toUInt32, 0, 0]

/-- Two rounds, a number of times. -/
def rounds : Nat → State → State
  | 0, s => s
  | n + 1, s => rounds n (doubleRound s)

/-- A block of the keystream: twelve rounds over the start, and the start added word by word. -/
def block (key : Key) (counter : UInt64) : State :=
  let s := start key counter
  Vector.zipWith (· + ·) (rounds 6 s) s

/-- Words taken in pairs, the first of a pair being the low half. -/
def pairs : List UInt32 → List UInt64
  | lo :: hi :: ws => ((hi.toUInt64 <<< 32) ||| lo.toUInt64) :: pairs ws
  | _ => []

end Cipher

/-- A place in the keystream of a key: the next block to make, and what is left of the block before it. -/
structure Keystream where
  key : Key
  counter : UInt64 := 0
  left : List UInt64 := []

namespace Keystream

/-- The keystream of the key of a seed, from its start. -/
def ofSeed (seed : UInt64) : Keystream := { key := Key.ofSeed seed }

instance : WordSource Keystream where
  next k :=
    match k.left with
    | w :: ws => (w, { k with left := ws })
    | [] =>
      match Cipher.pairs (Cipher.block k.key k.counter).toList with
      | w :: ws => (w, { k with counter := k.counter + 1, left := ws })
      | [] => (0, k)

end Keystream

end Pseudonym
