import ContractYul.Data.Chunks

/-!
# Keccak-256

The sponge with a rate of 136 bytes over the permutation of 25 lanes of 64 bits, in the form that
contract selectors and event topics are computed with: the padding starts with the byte 1.
-/

namespace ContractYul.Keccak

/-- Twenty-five lanes; lane `x + 5 * y` stands at column `x` of row `y`. -/
abbrev Lanes := Vector UInt64 25

def rotations : List UInt64 :=
  [0, 1, 62, 28, 27, 36, 44, 6, 55, 20, 3, 10, 43, 25, 39, 41, 45, 15, 21, 8, 18, 2, 61, 56, 14]

def roundConstants : List UInt64 :=
  [0x0000000000000001, 0x0000000000008082, 0x800000000000808A, 0x8000000080008000,
   0x000000000000808B, 0x0000000080000001, 0x8000000080008081, 0x8000000000008009,
   0x000000000000008A, 0x0000000000000088, 0x0000000080008009, 0x000000008000000A,
   0x000000008000808B, 0x800000000000008B, 0x8000000000008089, 0x8000000000008003,
   0x8000000000008002, 0x8000000000000080, 0x000000000000800A, 0x800000008000000A,
   0x8000000080008081, 0x8000000000008080, 0x0000000080000001, 0x8000000080008008]

def rotateLeft (x n : UInt64) : UInt64 :=
  (x <<< n) ||| (x >>> (64 - n))

def lane (a : Lanes) (i : Nat) : UInt64 :=
  a.get ⟨i % 25, Nat.mod_lt _ (by decide)⟩

def column (a : Lanes) (x : Nat) : UInt64 :=
  lane a x ^^^ lane a (x + 5) ^^^ lane a (x + 10) ^^^ lane a (x + 15) ^^^ lane a (x + 20)

/-- Adds to each lane the parities of two neighbouring columns. -/
def theta (a : Lanes) : Lanes :=
  let c := Vector.ofFn fun x : Fin 5 => column a x.val
  let parity (x : Nat) : UInt64 := c.get ⟨x % 5, Nat.mod_lt _ (by decide)⟩
  Vector.ofFn fun i =>
    lane a i.val ^^^ (parity (i.val + 4) ^^^ rotateLeft (parity (i.val + 1)) 1)

/-- Rotates the lanes and moves the lane at column `x`, row `y` to column `y`, row `2x + 3y`. -/
def rhoPi (a : Lanes) : Lanes :=
  Vector.ofFn fun i =>
    let x := i.val % 5
    let y := i.val / 5
    -- what arrives at column `x`, row `y` comes from column `x + 3y`, row `x`
    let source := (x + 3 * y) % 5 + 5 * x
    rotateLeft (lane a source) (rotations.getD source 0)

def chi (a : Lanes) : Lanes :=
  Vector.ofFn fun i =>
    let row := i.val / 5 * 5
    let x := i.val % 5
    lane a i.val ^^^ (~~~ lane a (row + (x + 1) % 5) &&& lane a (row + (x + 2) % 5))

def round (a : Lanes) (constant : UInt64) : Lanes :=
  let b := chi (rhoPi (theta a))
  b.set 0 (lane b 0 ^^^ constant)

def permute (a : Lanes) : Lanes :=
  roundConstants.foldl round a

def rate : Nat := 136

/-- The padding that completes a message of `length` bytes to whole blocks. -/
def padding (length : Nat) : List UInt8 :=
  match rate - length % rate with
  | 1 => [0x81]
  | n => 0x01 :: List.replicate (n - 2) 0 ++ [0x80]

def littleEndian (bytes : List UInt8) : UInt64 :=
  bytes.foldr (fun b acc => acc * 256 + b.toUInt64) 0

def absorb (a : Lanes) (block : List UInt8) : Lanes :=
  let words := (chunks 8 block).map littleEndian
  permute (Vector.ofFn fun i => lane a i.val ^^^ words.getD i.val 0)

def laneBytes (w : UInt64) : List UInt8 :=
  (List.range 8).map fun i => (w >>> (8 * i).toUInt64).toUInt8

end ContractYul.Keccak

namespace ContractYul

def keccak256 (message : List UInt8) : List UInt8 :=
  let blocks := chunks Keccak.rate (message ++ Keccak.padding message.length)
  let final := blocks.foldl Keccak.absorb (Vector.replicate 25 0)
  (List.range 4).flatMap fun i => Keccak.laneBytes (Keccak.lane final i)

end ContractYul
