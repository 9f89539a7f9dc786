import RoundLedger.Random.ChaCha

/-!
# A seeded source of numbers

The words of consecutive ChaCha blocks. The key is spread out from a seed of 64 bits by a
linear congruential generator with a permuted output.
-/

namespace RoundLedger

structure Generator where
  key : ChaCha.Secret
  nextBlock : UInt64 := 0
  /-- The words of the last block that have not been taken. -/
  words : List UInt32 := []

namespace Generator

/-! ## Seeds -/

def advance (state : UInt64) : UInt64 := state * 6364136223846793005 + 11634580027462260723

/-- The output for a state: some of its bits, rotated by its top five. -/
def permute (state : UInt64) : UInt32 :=
  let bits := ((state >>> 18 ^^^ state) >>> 27).toUInt32
  let turn := (state >>> 59).toUInt32
  bits >>> turn ||| bits <<< (32 - turn)

/-- The next four outputs, and the state after them. -/
def spread (state : UInt64) : ChaCha.Row × UInt64 :=
  let a := advance state
  let b := advance a
  let c := advance b
  let d := advance c
  (⟨permute a, permute b, permute c, permute d⟩, d)

def ofSeed (seed : UInt64) : Generator :=
  let (low, state) := spread seed
  let (high, _) := spread state
  { key := ⟨low, high⟩ }

/-! ## Draws -/

def next (g : Generator) : UInt32 × Generator :=
  match g.words with
  | word :: words => (word, { g with words })
  | [] =>
    let words := ChaCha.block g.key g.nextBlock
    (words.headD 0, { g with nextBlock := g.nextBlock + 1, words := words.drop 1 })

/-- A number below `bound`: the upper half of the product of a word and the bound. The lower half
tells words that would favour some numbers; these are passed over, up to `tries` of them. -/
def below (bound : Nat) : Nat → Generator → Nat × Generator
  | 0, g => (0, g)
  | tries + 1, g =>
    let (word, g) := g.next
    let product := word.toNat * bound
    let fair := bound <<< (31 - bound.log2)
    if product % UInt32.size < fair then (product / UInt32.size, g) else below bound tries g

end Generator

end RoundLedger
