import DelayTuning.Random.ChaCha
import DelayTuning.Scalar

/-!
# Pseudo-random generators

A generator is a place in the stream of words of a ChaCha key. Drawing a word moves the place on by
one. Equal seeds give equal streams.

## Main definitions

- `Generator.ofSeed`: the generator at the start of a seed's stream
- `Generator.next32`, `Generator.next64`: the next word, the next two words
- `Generator.fraction53`, `Generator.fraction52`: the numerator of a random fraction
- `Generator.unit`, `Generator.between`: a number of the unit interval, of a given interval
- `Generator.below`: an integer below a bound
- `Generator.shuffle`: a random order of a list
-/

namespace DelayTuning

/-- A place in the stream of a key: the words of the current block that are not yet drawn, and the
    number of the block after it. -/
structure Generator where
  key : ChaCha.Key
  nextBlock : UInt64
  pending : List UInt32
  deriving DecidableEq, Repr

namespace Generator

/-- One step of the sequence of states that a seed is stretched with. -/
def stretch (state : UInt64) : UInt64 :=
  state * 6364136223846793005 + 11634580027462260723

/-- The key word of a state: its high bits mixed, then turned right by its five highest bits. -/
def keyWord (state : UInt64) : UInt32 :=
  ChaCha.rotateRight (((state >>> 18) ^^^ state) >>> 27).toUInt32 (state >>> 59).toUInt32

/-- The key of a seed, one word for each of eight states. -/
def keyOfSeed (seed : UInt64) : ChaCha.Key :=
  let s0 := stretch seed
  let s1 := stretch s0
  let s2 := stretch s1
  let s3 := stretch s2
  let s4 := stretch s3
  let s5 := stretch s4
  let s6 := stretch s5
  let s7 := stretch s6
  ⟨keyWord s0, keyWord s1, keyWord s2, keyWord s3, keyWord s4, keyWord s5, keyWord s6, keyWord s7⟩

def ofSeed (seed : UInt64) : Generator :=
  ⟨keyOfSeed seed, 0, []⟩

def next32 (g : Generator) : UInt32 × Generator :=
  match g.pending with
  | word :: rest => (word, { g with pending := rest })
  | [] =>
    match ChaCha.block g.key g.nextBlock with
    | word :: rest => (word, { g with nextBlock := g.nextBlock + 1, pending := rest })
    | [] => (0, g)

/-- The next two words, the first one in the low half. -/
def next64 (g : Generator) : UInt64 × Generator :=
  let (low, g) := g.next32
  let (high, g) := g.next32
  (high.toUInt64 <<< 32 ||| low.toUInt64, g)

/-- The numerator of a random fraction with denominator `2 ^ 53`. -/
def fraction53 (g : Generator) : Nat × Generator :=
  let (word, g) := g.next64
  ((word >>> 11).toNat, g)

/-- The numerator of a random fraction with denominator `2 ^ 52`. -/
def fraction52 (g : Generator) : Nat × Generator :=
  let (word, g) := g.next64
  ((word >>> 12).toNat, g)

/-- A number of `[0, 1)`, a multiple of `2 ^ -53`. -/
@[specialize]
def unit {α : Type} [Scalar α] (g : Generator) : α × Generator :=
  let (numerator, g) := g.fraction53
  ((numerator : α) / (Nat.pow 2 53 : α), g)

/-- A number between `lower` and `upper`: a multiple of `2 ^ -52` below one, stretched and moved. -/
@[specialize]
def between {α : Type} [Scalar α] (lower upper : α) (g : Generator) : α × Generator :=
  let (numerator, g) := g.fraction52
  ((numerator : α) / (Nat.pow 2 52 : α) * (upper - lower) + lower, g)

/-- An integer below `bound`, for `0 < bound ≤ 2 ^ 32`. A word scaled to the bound gives the integer;
    when what is cut off could carry into it, a second word decides. -/
def below (bound : Nat) (g : Generator) : Nat × Generator :=
  let (word, g) := g.next32
  let product := word.toNat * bound
  let result := product / UInt32.size
  let cut := product % UInt32.size
  if UInt32.size - bound < cut then
    let (word, g) := g.next32
    if UInt32.size ≤ cut + word.toNat * bound / UInt32.size then (result + 1, g) else (result, g)
  else (result, g)

/-- How many of the factors `next, next + 1, …` fit: the largest product below `2 ^ 32` that starts
    with `product`, and the first factor that is left out. -/
def factorsBelowWord : Nat → Nat → Nat → Nat × Nat
  | 0, product, next => (product, next)
  | fuel + 1, product, next =>
    if product * next < UInt32.size then factorsBelowWord fuel (product * next) (next + 1)
    else (product, next)

/-- A source of indices for a shuffle. Index number `i` is below `i + 1`; several of them are cut from
    one draw. -/
structure IndexSource where
  generator : Generator
  /-- The part of the last draw that is not used up. -/
  chunk : Nat
  remaining : Nat
  deriving DecidableEq, Repr

/-- The next index below `bound`. A new draw covers as many of the following bounds as fit into a
    word. -/
def IndexSource.next (s : IndexSource) (bound : Nat) : Nat × IndexSource :=
  let s :=
    if s.remaining = 0 then
      let (product, left) := factorsBelowWord 32 bound (bound + 1)
      let (chunk, generator) := s.generator.below product
      ⟨generator, chunk, left - bound⟩
    else s
  if s.remaining = 1 then (s.chunk, { s with remaining := 0 })
  else (s.chunk % bound, { s with chunk := s.chunk / bound, remaining := s.remaining - 1 })

/-- The steps of a shuffle from entry `i` on: each entry changes places with one that is not after
    it. -/
def shuffleFrom {β : Type} : Nat → Nat → Array β → IndexSource → Array β × Generator
  | 0, _, xs, s => (xs, s.generator)
  | fuel + 1, i, xs, s =>
    let (j, s) := s.next (i + 1)
    shuffleFrom fuel (i + 1) (xs.swapIfInBounds i j) s

/-- A list in random order. A list of at most one entry takes nothing from the stream. -/
def shuffle {β : Type} (xs : List β) (g : Generator) : List β × Generator :=
  if xs.length ≤ 1 then (xs, g)
  else
    let (shuffled, g) := shuffleFrom xs.length 0 xs.toArray ⟨g, 0, 1⟩
    (shuffled.toList, g)

end Generator

end DelayTuning
