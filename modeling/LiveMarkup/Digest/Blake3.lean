/-!
# The BLAKE3 hash

BLAKE3 cuts its input into chunks of 1024 bytes and the chunks into blocks of 64. Each block is compressed together with
the chaining value of the block before it, so a chunk comes down to one chaining value; chaining values are then joined
pair by pair, level by level, until one node is left, which gives the hash.
-/

namespace LiveMarkup.Blake3

/-- Eight or sixteen words of 32 bits. -/
abbrev Words := Array UInt32

/-- The initial chaining value. -/
def initial : Words :=
  #[0x6A09E667, 0xBB67AE85, 0x3C6EF372, 0xA54FF53A, 0x510E527F, 0x9B05688C, 0x1F83D9AB, 0x5BE0CD19]

/-- The flag of the first block of a chunk. -/
def chunkStart : UInt32 := 1

/-- The flag of the last block of a chunk. -/
def chunkEnd : UInt32 := 2

/-- The flag of a node that joins two chaining values. -/
def parent : UInt32 := 4

/-- The flag of the node that gives the hash. -/
def root : UInt32 := 8

/-- The word at a place, or zero. -/
def word (w : Words) (i : Nat) : UInt32 :=
  w[i]?.getD 0

/-- The word with its bits moved to the right, around the end. -/
def rotateRight (w : UInt32) (n : UInt32) : UInt32 :=
  (w >>> n) ||| (w <<< (32 - n))

/-- Mixes two words of the message into four words of the state. -/
def mix (v : Words) (a b c d : Nat) (x y : UInt32) : Words :=
  let va := word v a + word v b + x
  let vd := rotateRight (word v d ^^^ va) 16
  let vc := word v c + vd
  let vb := rotateRight (word v b ^^^ vc) 12
  let va := va + vb + y
  let vd := rotateRight (vd ^^^ va) 8
  let vc := vc + vd
  let vb := rotateRight (vb ^^^ vc) 7
  (((v.setIfInBounds a va).setIfInBounds b vb).setIfInBounds c vc).setIfInBounds d vd

/-- Mixes a whole message into the state, first along the columns and then along the diagonals. -/
def round (v m : Words) : Words :=
  let v := mix v 0 4 8 12 (word m 0) (word m 1)
  let v := mix v 1 5 9 13 (word m 2) (word m 3)
  let v := mix v 2 6 10 14 (word m 4) (word m 5)
  let v := mix v 3 7 11 15 (word m 6) (word m 7)
  let v := mix v 0 5 10 15 (word m 8) (word m 9)
  let v := mix v 1 6 11 12 (word m 10) (word m 11)
  let v := mix v 2 7 8 13 (word m 12) (word m 13)
  mix v 3 4 9 14 (word m 14) (word m 15)

/-- The words of a message in the order in which the next round takes them. -/
def permuted (m : Words) : Words :=
  #[word m 2, word m 6, word m 3, word m 10, word m 7, word m 0, word m 4, word m 13, word m 1, word m 11, word m 12,
    word m 5, word m 9, word m 14, word m 15, word m 8]

/-- A number of rounds, each on a rearrangement of the message of the last. -/
def rounds : Nat → Words → Words → Words
  | 0, v, _ => v
  | n + 1, v, m => rounds n (round v m) (permuted m)

/-- The chaining value that a block comes to: its words, how many of its bytes count, which chunk it is of, and its flags. -/
def compress (chaining block : Words) (counter length : Nat) (flags : UInt32) : Words :=
  let v := chaining ++ initial.extract 0 4 ++
    #[UInt32.ofNat (counter % 0x100000000), UInt32.ofNat (counter / 0x100000000), UInt32.ofNat length, flags]
  let v := rounds 7 v block
  #[word v 0 ^^^ word v 8, word v 1 ^^^ word v 9, word v 2 ^^^ word v 10, word v 3 ^^^ word v 11,
    word v 4 ^^^ word v 12, word v 5 ^^^ word v 13, word v 6 ^^^ word v 14, word v 7 ^^^ word v 15]

/-- The word of four bytes, the lowest first. -/
def wordOfBytes (a b c d : UInt8) : UInt32 :=
  a.toUInt32 ||| (b.toUInt32 <<< 8) ||| (c.toUInt32 <<< 16) ||| (d.toUInt32 <<< 24)

/-- The words of a list of bytes, four bytes each; the bytes that the last word misses are zero. -/
def wordsOfBytes : List UInt8 → List UInt32
  | a :: b :: c :: d :: rest => wordOfBytes a b c d :: wordsOfBytes rest
  | [a, b, c] => [wordOfBytes a b c 0]
  | [a, b] => [wordOfBytes a b 0 0]
  | [a] => [wordOfBytes a 0 0 0]
  | [] => []

/-- The words of a block; the words that a short block misses count as zero. -/
def blockWords (bytes : List UInt8) : Words :=
  (wordsOfBytes bytes).toArray

/-- The first pieces of a list, up to a number of them, each of the same length but for the last. -/
def firstPieces (length : Nat) : (limit : Nat) → List UInt8 → List (List UInt8)
  | 0, _ => []
  | limit + 1, s => if s.isEmpty then [] else s.take length :: firstPieces length limit (s.drop length)

/-- The pieces of a list, each of the same length but for the last. A list has at most as many pieces as elements. -/
def pieces (length : Nat) (s : List UInt8) : List (List UInt8) :=
  firstPieces length s.length s

/-- The chaining value that the blocks of a chunk come to after a chaining value; the last block takes further flags. -/
def chunk (counter : Nat) (last : UInt32) : (first : UInt32) → Words → List (List UInt8) → Words
  | first, chaining, [] => compress chaining (blockWords []) counter 0 (first ||| chunkEnd ||| last)
  | first, chaining, [block] =>
    compress chaining (blockWords block) counter block.length (first ||| chunkEnd ||| last)
  | first, chaining, block :: rest =>
    chunk counter last 0 (compress chaining (blockWords block) counter block.length first) rest

/-- The chaining value of a whole chunk. -/
def chunkValue (counter : Nat) (last : UInt32) (bytes : List UInt8) : Words :=
  chunk counter last chunkStart initial (pieces 64 bytes)

/-- The chaining value that joins two. -/
def join (flags : UInt32) (left right : Words) : Words :=
  compress initial (left ++ right) 0 64 (parent ||| flags)

/-- Joins neighbours; a chaining value without a neighbour stays. -/
def joinPairs : List Words → List Words
  | left :: right :: rest => join 0 left right :: joinPairs rest
  | rest => rest

/-- Joining neighbours leaves no more chaining values than there were. -/
theorem length_joinPairs_le (values : List Words) : (joinPairs values).length ≤ values.length := by
  fun_induction joinPairs values with
  | case1 left right rest ih =>
    simp only [List.length_cons]
    omega
  | case2 => exact Nat.le_refl _

/-- Joins chaining values until two are left, and those two into the root. -/
def joinAll : List Words → Words
  | left :: right :: third :: rest => joinAll (joinPairs (left :: right :: third :: rest))
  | [left, right] => join root left right
  | [value] => value
  | [] => initial
termination_by values => values.length
decreasing_by
  have := length_joinPairs_le (third :: rest)
  simp only [joinPairs, List.length_cons] at this ⊢
  omega

/-- The first eight words of the hash. -/
def hashWords (bytes : List UInt8) : Words :=
  match pieces 1024 bytes with
  | [] => chunkValue 0 root []
  | [only] => chunkValue 0 root only
  | chunks => joinAll (chunks.zipIdx.map fun (bytes, counter) => chunkValue counter 0 bytes)

/-- The first eight bytes of the hash, as a number whose lowest byte comes first. -/
def hash64 (bytes : List UInt8) : UInt64 :=
  let w := hashWords bytes
  (word w 0).toUInt64 ||| ((word w 1).toUInt64 <<< 32)

end LiveMarkup.Blake3
