/-!
# A stream of pseudo-random words

The stream is the key stream of the ChaCha cipher with eight rounds, an all-zero nonce and a block
counter that starts at zero. The key is expanded from a seed of 64 bits by a linear congruential
generator whose output is permuted by its own high bits.
-/

namespace BayesCircuit.Random

/-- The bits of a word, moved cyclically towards the high end. -/
def rotateLeft (x : UInt32) (n : UInt32) : UInt32 := (x <<< n) ||| (x >>> (32 - n))

/-- The sixteen words of a block, indexed modulo sixteen. -/
abbrev Block := Array UInt32

namespace Block

/-- Mix four words of a block. -/
def quarterRound (s : Block) (a b c d : Nat) : Block := Id.run do
  let mut wa := s.getD a 0
  let mut wb := s.getD b 0
  let mut wc := s.getD c 0
  let mut wd := s.getD d 0
  wa := wa + wb; wd := rotateLeft (wd ^^^ wa) 16
  wc := wc + wd; wb := rotateLeft (wb ^^^ wc) 12
  wa := wa + wb; wd := rotateLeft (wd ^^^ wa) 8
  wc := wc + wd; wb := rotateLeft (wb ^^^ wc) 7
  return (((s.setIfInBounds a wa).setIfInBounds b wb).setIfInBounds c wc).setIfInBounds d wd

/-- Mix the columns and then the diagonals of a block. -/
def doubleRound (s : Block) : Block :=
  let columns :=
    (((s.quarterRound 0 4 8 12).quarterRound 1 5 9 13).quarterRound 2 6 10 14).quarterRound
      3 7 11 15
  (((columns.quarterRound 0 5 10 15).quarterRound 1 6 11 12).quarterRound 2 7 8 13).quarterRound
    3 4 9 14

/-- The block of the key stream with a given number. -/
def ofCounter (key : Array UInt32) (counter : Nat) : Block :=
  let start : Block :=
    #[0x61707865, 0x3320646e, 0x79622d32, 0x6b206574] ++ key ++
      #[UInt32.ofNat (counter % Nat.pow 2 32), UInt32.ofNat (counter / Nat.pow 2 32), 0, 0]
  let mixed := start.doubleRound.doubleRound.doubleRound.doubleRound
  mixed.zipWith (· + ·) start

end Block

/-- The next state of the generator that expands seeds. -/
def expandStep (state : UInt64) : UInt64 := state * 6364136223846793005 + 11634580027462260723

/-- The output for a state of the generator that expands seeds. -/
def expandOutput (state : UInt64) : UInt32 :=
  let x := (((state >>> 18) ^^^ state) >>> 27).toUInt32
  let r := (state >>> 59).toUInt32
  (x >>> r) ||| (x <<< ((32 - r) % 32))

/-- The words that the generator produces from a state. -/
def expand : Nat → UInt64 → List UInt32
  | 0, _ => []
  | n + 1, state =>
      let state := expandStep state
      expandOutput state :: expand n state

/-- A key and a position in its stream, with the block at that position. -/
structure Keystream where
  key : Array UInt32
  position : Nat
  block : Block

namespace Keystream

/-- The start of the stream of a seed. -/
def ofSeed (seed : UInt64) : Keystream :=
  let key := (expand 8 seed).toArray
  ⟨key, 0, Block.ofCounter key 0⟩

/-- The next word. -/
def next (s : Keystream) : UInt32 × Keystream :=
  let w := s.block.getD (s.position % 16) 0
  let position := s.position + 1
  if position % 16 == 0 then (w, ⟨s.key, position, Block.ofCounter s.key (position / 16)⟩)
  else (w, { s with position })

/-- The next number below a positive bound of at most 32 bits. A word is scaled to the bound; a
second one decides the cases in which the fraction of the first is too close to carrying. -/
def below (bound : Nat) (s : Keystream) : Nat × Keystream :=
  let (w, s) := s.next
  let product := w.toNat * bound
  let high := product / Nat.pow 2 32
  let low := product % Nat.pow 2 32
  if Nat.pow 2 32 - bound < low then
    let (w, s) := s.next
    let carry := if Nat.pow 2 32 ≤ low + w.toNat * bound / Nat.pow 2 32 then 1 else 0
    (high + carry, s)
  else (high, s)

/-- The next number of the unit interval: a multiple of `2 ^ (-53)`, one excluded. -/
def unit (s : Keystream) : Float × Keystream :=
  let (low, s) := s.next
  let (high, s) := s.next
  let bits := high.toUInt64 * 0x100000000 + low.toUInt64
  ((bits >>> 11).toFloat / 9007199254740992.0, s)

end Keystream
end BayesCircuit.Random
