import PlonkKzg.Bytes
import PlonkKzg.Capacity

/-!
# The ChaCha20 stream

The deterministic source of randomness: 32-bit words cut from the blocks of ChaCha20 under a
seed, with a 64-bit block counter from zero and no nonce.

* `Four` — four items with their places;
* `ChaCha.quarterRounds`, `ChaCha.doubleRound` — the rounds, on columns and diagonals;
* `ChaCha.block` — the sixteen words of one block, four rows of four;
* `ChaCha.word` — the stream as a function from positions to words;
* `Rng` — a seed and the position of the next unread word;
* `Draw α` — a computation that reads from a generator;
* `nextU32`, `nextU64`, `nextBytes` — the primitive draws. Each takes whole words: a 64-bit
  number is two words, low word first, and bytes that a last word leaves over are dropped.
-/

namespace PlonkKzg

structure Four (α : Type) where
  a : α
  b : α
  c : α
  d : α

namespace Four

variable {α : Type}

def get (v : Four α) : Fin 4 → α
  | 0 => v.a
  | 1 => v.b
  | 2 => v.c
  | 3 => v.d

def zipWith (f : α → α → α) (v w : Four α) : Four α := ⟨f v.a w.a, f v.b w.b, f v.c w.c, f v.d w.d⟩

/-- Each item one place on, and the first one last. -/
def turn (v : Four α) : Four α := ⟨v.b, v.c, v.d, v.a⟩

end Four

namespace ChaCha

/-- The sixteen words that the rounds work on, row after row. -/
abbrev State : Type := Four (Four UInt32)

def rotate (x : UInt32) (k : UInt32) : UInt32 := (x <<< k) ||| (x >>> (32 - k))

def add (v w : Four UInt32) : Four UInt32 := v.zipWith (· + ·) w

/-- The bits of two rows, added, and the words rotated. -/
def mix (k : UInt32) (v w : Four UInt32) : Four UInt32 := v.zipWith (fun x y => rotate (x ^^^ y) k) w

/-- Four quarter rounds, one on each column. -/
def quarterRounds (s : State) : State :=
  let a := add s.a s.b
  let d := mix 16 s.d a
  let c := add s.c d
  let b := mix 12 s.b c
  let a := add a b
  let d := mix 8 d a
  let c := add c d
  let b := mix 7 b c
  ⟨a, b, c, d⟩

/-- The diagonals as columns. -/
def skew (s : State) : State := ⟨s.a, s.b.turn, s.c.turn.turn, s.d.turn.turn.turn⟩

/-- The columns as diagonals. -/
def unskew (s : State) : State := ⟨s.a, s.b.turn.turn.turn, s.c.turn.turn, s.d.turn⟩

/-- Four quarter rounds on the columns, then four on the diagonals. -/
def doubleRound (s : State) : State := unskew (quarterRounds (skew (quarterRounds s)))

def rounds : Nat → State → State
  | 0, s => s
  | k + 1, s => rounds k (doubleRound s)

/-- Word number `i` of a byte string; bytes past its end count as zero. -/
def seedWord (seed : List UInt8) (i : Nat) : UInt32 :=
  UInt32.ofNat (ofLittleEndian ((seed.drop (4 * i)).take 4))

/-- The state before the rounds: the constants, the seed, the counter and a zero nonce. -/
def initial (seed : List UInt8) (counter : Nat) : State :=
  ⟨⟨0x61707865, 0x3320646e, 0x79622d32, 0x6b206574⟩,
    ⟨seedWord seed 0, seedWord seed 1, seedWord seed 2, seedWord seed 3⟩,
    ⟨seedWord seed 4, seedWord seed 5, seedWord seed 6, seedWord seed 7⟩,
    ⟨UInt32.ofNat counter, UInt32.ofNat (counter / UInt32.size), 0, 0⟩⟩

/-- A block: the state before the rounds plus the state after them. -/
def block (seed : List UInt8) (counter : Nat) : State :=
  let s := initial seed counter
  s.zipWith add (rounds 10 s)

/-- The word of the stream at a position. -/
def word (seed : List UInt8) (position : Nat) : UInt32 :=
  let row : Fin 4 := ⟨position / 4 % 4, Nat.mod_lt _ (by decide)⟩
  let column : Fin 4 := ⟨position % 4, Nat.mod_lt _ (by decide)⟩
  ((block seed (position / 16)).get row).get column

end ChaCha

/-- A generator: the seed and how many words have been read. -/
structure Rng where
  seed : List UInt8
  position : Nat := 0
deriving Repr

/-- A computation that draws from a generator. -/
abbrev Draw : Type → Type := StateM Rng

def nextU32 : Draw UInt32 := fun g =>
  (ChaCha.word g.seed g.position, { g with position := g.position + 1 })

/-- The next two words, the low one first. -/
def nextU64 : Draw UInt64 := do
  let low ← nextU32
  let high ← nextU32
  pure (UInt64.ofNat (low.toNat + UInt32.size * high.toNat))

/-- The bytes of the next words, each word least significant byte first. -/
def nextWordBytes : Nat → Draw (List UInt8)
  | 0 => pure []
  | k + 1 => do
      let w ← nextU32
      let rest ← nextWordBytes k
      pure (littleEndian 4 w.toNat ++ rest)

/-- The next `n` bytes, unless there are too many for a table. -/
def nextBytes (n : Nat) : Draw (Except Fault (List UInt8)) :=
  if TableFits n 1 then do
    let bs ← nextWordBytes ((n + 3) / 4)
    pure (.ok (bs.take n))
  else pure (.error (.misuse .tableTooLarge))

/-- The fixed generator for reproducible runs. -/
def Rng.fixed : Rng := ⟨[1, 0, 0, 0, 23, 0, 0, 0, 200, 1, 0, 0, 210, 30], 0⟩

end PlonkKzg
