/-!
The hash function Keccak-256, in the form that pads a message with a single one bit. The state is a
square of five by five words; a message is absorbed in blocks of 17 words.
-/

namespace SolNorm.Keccak

/-- The state: the word of column `x` and row `y` is at `x + 5 * y`. -/
abbrev State := Vector UInt64 25

def State.zero : State := Vector.replicate 25 0

/-- The word of a column and a row, which are taken modulo five. -/
def State.word (s : State) (x y : Nat) : UInt64 := s.get (Fin.ofNat 25 (x % 5 + 5 * (y % 5)))

/-- The state with the words that a function gives for columns and rows. -/
def State.ofWords (f : Nat → Nat → UInt64) : State :=
  Vector.ofFn fun i => f (i.val % 5) (i.val / 5)

def rotate (w : UInt64) (n : Nat) : UInt64 :=
  if n = 0 then w else (w <<< n.toUInt64) ||| (w >>> (64 - n).toUInt64)

/-- How far the words are rotated, row by row. -/
def offsets : List Nat :=
  [0, 1, 62, 28, 27,
    36, 44, 6, 55, 20,
    3, 10, 43, 25, 39,
    41, 45, 15, 21, 8,
    18, 2, 61, 56, 14]

def roundConstants : List UInt64 :=
  [0x0000000000000001, 0x0000000000008082, 0x800000000000808a, 0x8000000080008000,
    0x000000000000808b, 0x0000000080000001, 0x8000000080008081, 0x8000000000008009,
    0x000000000000008a, 0x0000000000000088, 0x0000000080008009, 0x000000008000000a,
    0x000000008000808b, 0x800000000000008b, 0x8000000000008089, 0x8000000000008003,
    0x8000000000008002, 0x8000000000000080, 0x000000000000800a, 0x800000008000000a,
    0x8000000080008081, 0x8000000000008080, 0x0000000080000001, 0x8000000080008008]

/-- Add to each word the parities of two columns near it. -/
def theta (s : State) : State :=
  let parity : Vector UInt64 5 := Vector.ofFn fun x =>
    s.word x 0 ^^^ s.word x 1 ^^^ s.word x 2 ^^^ s.word x 3 ^^^ s.word x 4
  let column (x : Nat) : UInt64 := parity.get (Fin.ofNat 5 x)
  .ofWords fun x y => s.word x y ^^^ column (x + 4) ^^^ rotate (column (x + 1)) 1

/-- Rotate the words and move them to their new places. -/
def rhoPi (s : State) : State :=
  .ofWords fun x y =>
    let column := (x + 3 * y) % 5
    rotate (s.word column x) (offsets.getD (column + 5 * x) 0)

/-- Mix each word with the two after it in its row. -/
def chi (s : State) : State :=
  .ofWords fun x y => s.word x y ^^^ (~~~ s.word (x + 1) y &&& s.word (x + 2) y)

def round (s : State) (constant : UInt64) : State :=
  let mixed := chi (rhoPi (theta s))
  .ofWords fun x y => if x = 0 ∧ y = 0 then mixed.word 0 0 ^^^ constant else mixed.word x y

def permute (s : State) : State := roundConstants.foldl round s

/-- The number of bytes in a block. -/
def rate : Nat := 136

/-- What is put after a message to fill its last block. -/
def padding (size : Nat) : List UInt8 :=
  let missing := rate - size % rate
  if missing = 1 then [0x81] else 0x01 :: List.replicate (missing - 2) 0 ++ [0x80]

/-- The word that eight bytes stand for, the lowest byte first. -/
def wordOfBytes (bytes : List UInt8) : UInt64 :=
  bytes.foldr (fun b w => (w <<< 8) ||| b.toUInt64) 0

/-- Take in one block. -/
def absorb (s : State) (block : List UInt8) : State :=
  permute (.ofWords fun x y =>
    let k := x + 5 * y
    if 8 * k < rate then s.word x y ^^^ wordOfBytes ((block.drop (8 * k)).take 8) else s.word x y)

def finalState (message : List UInt8) : State :=
  let padded := message ++ padding message.length
  (List.range (padded.length / rate)).foldl
    (fun s k => absorb s ((padded.drop (rate * k)).take rate)) .zero

/-- The bytes of a word, the lowest first. -/
def bytesOfWord (w : UInt64) : List UInt8 :=
  (List.range 8).map fun k => (w >>> (8 * k).toUInt64).toUInt8

/-- The 32 bytes of the hash. -/
def hash (message : List UInt8) : List UInt8 :=
  let s := finalState message
  (List.range 4).flatMap fun x => bytesOfWord (s.word x 0)

end SolNorm.Keccak
