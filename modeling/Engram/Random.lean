/-
  Engram.Random — the stream of random words that patterns are drawn from.

  A 64-bit seed is expanded to a 256-bit key, and the key to an unbounded stream of 32-bit
  words: the blocks of the ChaCha cipher with twelve rounds, under a 64-bit block counter that
  starts at zero. `Stream.word n` is word `n` of the stream; drawing reads the words in order,
  so everything that is drawn depends on the seed and on the number of words read before.
-/

namespace Engram.Random

/-- Four words, one in each column of a cipher state. -/
structure Row where
  (w0 w1 w2 w3 : UInt32)

namespace Row

def zipWith (f : UInt32 → UInt32 → UInt32) (r s : Row) : Row :=
  ⟨f r.w0 s.w0, f r.w1 s.w1, f r.w2 s.w2, f r.w3 s.w3⟩

def words (r : Row) : List UInt32 := [r.w0, r.w1, r.w2, r.w3]

/-- Every word one column to the left. -/
def turn (r : Row) : Row := ⟨r.w1, r.w2, r.w3, r.w0⟩

end Row

/-- The sixteen words of a cipher state, in four rows. -/
structure Block where
  (a b c d : Row)

def Block.words (s : Block) : List UInt32 := s.a.words ++ s.b.words ++ s.c.words ++ s.d.words

def rotateLeft (x k : UInt32) : UInt32 := (x <<< k) ||| (x >>> (32 - k))

/-- The sum of two rows. -/
def sum (r s : Row) : Row := r.zipWith (· + ·) s

/-- The difference of two rows in bits, with every word rotated. -/
def mix (k : UInt32) (r s : Row) : Row := r.zipWith (fun x y => rotateLeft (x ^^^ y) k) s

/-- The quarter round on each column. -/
def columnRound (s : Block) : Block :=
  let a := sum s.a s.b
  let d := mix 16 s.d a
  let c := sum s.c d
  let b := mix 12 s.b c
  let a := sum a b
  let d := mix 8 d a
  let c := sum c d
  let b := mix 7 b c
  ⟨a, b, c, d⟩

/-- A round on the columns followed by a round on the diagonals, which are columns while the rows
are turned against each other. -/
def doubleRound (s : Block) : Block :=
  let s := columnRound s
  let s := columnRound ⟨s.a, s.b.turn, s.c.turn.turn, s.d.turn.turn.turn⟩
  ⟨s.a, s.b.turn.turn.turn, s.c.turn.turn, s.d.turn⟩

/-- A 256-bit key. -/
abbrev Key := Vector UInt32 8

/-- The cipher state before the rounds: constants, key, block counter and a zero nonce. -/
def initial (key : Key) (counter : UInt64) : Block :=
  ⟨⟨0x61707865, 0x3320646e, 0x79622d32, 0x6b206574⟩, ⟨key[0], key[1], key[2], key[3]⟩,
    ⟨key[4], key[5], key[6], key[7]⟩, ⟨counter.toUInt32, (counter >>> 32).toUInt32, 0, 0⟩⟩

/-- The output words of one block: twelve rounds, then the sum with the initial state. -/
def block (key : Key) (counter : UInt64) : Block :=
  let s := initial key counter
  let r := Nat.repeat doubleRound 6 s
  ⟨sum r.a s.a, sum r.b s.b, sum r.c s.c, sum r.d s.d⟩

/-- One step of the generator that expands a seed: the next state and a word drawn from it. -/
def expand (state : UInt64) : UInt32 × UInt64 :=
  let state := state * 6364136223846793005 + 11634580027462260723
  let x := (((state >>> 18) ^^^ state) >>> 27).toUInt32
  let turn := (state >>> 59).toUInt32
  (if turn = 0 then x else (x >>> turn) ||| (x <<< (32 - turn)), state)

/-- The key that a seed stands for. -/
def Key.ofSeed (seed : UInt64) : Key :=
  let (k0, s) := expand seed
  let (k1, s) := expand s
  let (k2, s) := expand s
  let (k3, s) := expand s
  let (k4, s) := expand s
  let (k5, s) := expand s
  let (k6, s) := expand s
  let (k7, _) := expand s
  #v[k0, k1, k2, k3, k4, k5, k6, k7]

/-- A position in the stream of a key: the number of the next block, and the words of the
block before it that have not been read. -/
structure Stream where
  key : Key
  counter : UInt64
  pending : List UInt32

namespace Stream

def ofSeed (seed : UInt64) : Stream := ⟨Key.ofSeed seed, 0, []⟩

def next (s : Stream) : UInt32 × Stream :=
  match s.pending with
  | w :: rest => (w, { s with pending := rest })
  | [] =>
    let words := block s.key s.counter
    (words.a.w0, { s with counter := s.counter + 1, pending := words.words.tail })

/-- One random bit, the top bit of a word. -/
def bit (s : Stream) : Bool × Stream :=
  let (w, s) := s.next
  (w >>> 31 == 1, s)

/-- `n` random bits. -/
def bits : Nat → Stream → List Bool × Stream
  | 0, s => ([], s)
  | n + 1, s =>
    let (b, s) := s.bit
    let (rest, s) := bits n s
    (b :: rest, s)

/-- The greatest low half of a product that keeps the high half uniform below `n`. -/
def zone (n : UInt32) : UInt32 := (n <<< (31 - n.log2)) - 1

/-- A number below `n`, each as likely as the others: the high half of `n` times a word, drawn
again while the low half lies outside the zone. More than half of all words lie in the zone, so
the bound on the number of draws is never met. -/
def belowWithin (n : UInt32) : Nat → Stream → Nat × Stream
  | 0, s => (0, s)
  | draws + 1, s =>
    let (w, s) := s.next
    let product := w.toUInt64 * n.toUInt64
    if product.toUInt32 ≤ zone n then ((product >>> 32).toUInt32.toNat, s)
    else belowWithin n draws s

def below (n : Nat) (s : Stream) : Nat × Stream := belowWithin (UInt32.ofNat n) 256 s

/-- Exchanges each of the last `i` places but the first, from the end, with a random one at or
before it. -/
def shuffleFrom {α : Type} : Nat → Array α → Stream → Array α × Stream
  | 0, xs, s => (xs, s)
  | i + 1, xs, s =>
    let (j, s) := s.below (i + 2)
    shuffleFrom i (xs.swapIfInBounds (i + 1) j) s

/-- The array in random order. -/
def shuffle {α : Type} (xs : Array α) (s : Stream) : Array α × Stream := shuffleFrom (xs.size - 1) xs s

@[simp] theorem length_bits (n : Nat) (s : Stream) : (bits n s).1.length = n := by
  induction n generalizing s with
  | zero => rfl
  | succ n ih => simp [bits, ih]

end Stream

end Engram.Random
