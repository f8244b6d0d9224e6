import PackageMap.Text.Hex

/-!
# The BLAKE3 digest

Input is cut into chunks of 1024 bytes and these into blocks of 64. The blocks of a chunk are
compressed in a chain, the chunks in a binary tree whose left subtrees are full. The digest is the
compression of the last node as the root.
-/

namespace PackageMap.Digest

/-- Four words that are mixed together: a column or a diagonal of the state. -/
structure Lane where
  a : UInt32
  b : UInt32
  c : UInt32
  d : UInt32

/-- Eight words that chain one compression to the next. -/
abbrev Chain := Vector UInt32 8

/-- The sixteen message words of a block. -/
abbrev Block := Vector UInt32 16

def initial : Chain :=
  #v[0x6A09E667, 0xBB67AE85, 0x3C6EF372, 0xA54FF53A, 0x510E527F, 0x9B05688C, 0x1F83D9AB, 0x5BE0CD19]

/-- The order in which a round leaves the message words to the next round. -/
def schedule : Vector (Fin 16) 16 := #v[2, 6, 3, 10, 7, 0, 4, 13, 1, 11, 12, 5, 9, 14, 15, 8]

def rotateRight (w n : UInt32) : UInt32 := (w >>> n) ||| (w <<< (32 - n))

/-- Mix two message words into a lane. -/
def Lane.mix (l : Lane) (x y : UInt32) : Lane :=
  let a := l.a + l.b + x
  let d := rotateRight (l.d ^^^ a) 16
  let c := l.c + d
  let b := rotateRight (l.b ^^^ c) 12
  let a := a + b + y
  let d := rotateRight (d ^^^ a) 8
  let c := c + d
  let b := rotateRight (b ^^^ c) 7
  ⟨a, b, c, d⟩

/-- The state by its columns. -/
structure Columns where
  c0 : Lane
  c1 : Lane
  c2 : Lane
  c3 : Lane

/-- Mix the columns with the first half of the message, then the diagonals with the second. -/
def Columns.round (s : Columns) (m : Block) : Columns :=
  let c0 := s.c0.mix m[0] m[1]
  let c1 := s.c1.mix m[2] m[3]
  let c2 := s.c2.mix m[4] m[5]
  let c3 := s.c3.mix m[6] m[7]
  let d0 := Lane.mix ⟨c0.a, c1.b, c2.c, c3.d⟩ m[8] m[9]
  let d1 := Lane.mix ⟨c1.a, c2.b, c3.c, c0.d⟩ m[10] m[11]
  let d2 := Lane.mix ⟨c2.a, c3.b, c0.c, c1.d⟩ m[12] m[13]
  let d3 := Lane.mix ⟨c3.a, c0.b, c1.c, c2.d⟩ m[14] m[15]
  ⟨⟨d0.a, d3.b, d2.c, d1.d⟩, ⟨d1.a, d0.b, d3.c, d2.d⟩, ⟨d2.a, d1.b, d0.c, d3.d⟩,
    ⟨d3.a, d2.b, d1.c, d0.d⟩⟩

def permute (m : Block) : Block := schedule.map fun i => m[i]

def rounds : Nat → Columns → Block → Columns
  | 0, s, _ => s
  | n + 1, s, m => rounds n (s.round m) (permute m)

/-- What is left to compress: the chain so far, a block and what it stands for. -/
structure Node where
  chain : Chain
  block : Block
  counter : Nat
  length : Nat
  flags : UInt32

def chunkStart : UInt32 := 1
def chunkEnd : UInt32 := 2
def parent : UInt32 := 4
def root : UInt32 := 8

/-- The chain that follows a node. -/
def Node.compress (n : Node) : Chain :=
  let h := n.chain
  let s : Columns :=
    ⟨⟨h[0], h[4], initial[0], UInt32.ofNat n.counter⟩,
      ⟨h[1], h[5], initial[1], UInt32.ofNat (n.counter >>> 32)⟩,
      ⟨h[2], h[6], initial[2], UInt32.ofNat n.length⟩,
      ⟨h[3], h[7], initial[3], n.flags⟩⟩
  let s := rounds 7 s n.block
  #v[s.c0.a ^^^ s.c0.c, s.c1.a ^^^ s.c1.c, s.c2.a ^^^ s.c2.c, s.c3.a ^^^ s.c3.c,
    s.c0.b ^^^ s.c0.d, s.c1.b ^^^ s.c1.d, s.c2.b ^^^ s.c2.d, s.c3.b ^^^ s.c3.d]

/-- The byte at a place, or zero from `stop` on. -/
def byteAt (bytes : ByteArray) (stop i : Nat) : UInt32 :=
  if h : i < bytes.size then if i < stop then (bytes.get i h).toUInt32 else 0 else 0

/-- The block of the bytes from `start` to `stop`, filled up with zeros. -/
def blockAt (bytes : ByteArray) (start stop : Nat) : Block :=
  Vector.ofFn fun (w : Fin 16) =>
    let i := start + 4 * w.val
    byteAt bytes stop i ||| (byteAt bytes stop (i + 1) <<< 8) |||
      (byteAt bytes stop (i + 2) <<< 16) ||| (byteAt bytes stop (i + 3) <<< 24)

/-- The last node of the chunk from `start` to `stop`. `flags` tells whether its first block is to
come, and `blocks` how many blocks there are after this one. -/
def chunkFrom (bytes : ByteArray) (counter stop : Nat) : Nat → Nat → Chain → UInt32 → Node
  | 0, start, chain, flags =>
    ⟨chain, blockAt bytes start stop, counter, stop - start, flags ||| chunkEnd⟩
  | blocks + 1, start, chain, flags =>
    let node : Node := ⟨chain, blockAt bytes start (start + 64), counter, 64, flags⟩
    chunkFrom bytes counter stop blocks (start + 64) node.compress 0

/-- The node of the chunk with the number `counter`. -/
def chunk (bytes : ByteArray) (counter : Nat) : Node :=
  let start := 1024 * counter
  let stop := min bytes.size (start + 1024)
  chunkFrom bytes counter stop ((stop - start - 1) / 64) start initial chunkStart

/-- The node over two subtrees. -/
def join (left right : Chain) : Node := ⟨initial, left ++ right, 0, 64, parent⟩

/-- The largest power of two below `n`, for `n` from two on. -/
def leftSize (n : Nat) : Nat := 1 <<< (n - 1).log2

theorem leftSize_lt {n : Nat} (h : 1 < n) : leftSize n < n := by
  have := Nat.log2_self_le (n := n - 1) (by omega)
  unfold leftSize; rw [Nat.one_shiftLeft]; omega

theorem leftSize_pos (n : Nat) : 0 < leftSize n := by
  unfold leftSize; rw [Nat.one_shiftLeft]; exact Nat.pow_pos (by decide)

/-- The node over `n` chunks, the first of which has the number `first`. -/
def subtree (bytes : ByteArray) (first n : Nat) : Node :=
  if _h : n ≤ 1 then chunk bytes first
  else
    join (subtree bytes first (leftSize n)).compress
      (subtree bytes (first + leftSize n) (n - leftSize n)).compress
termination_by n
decreasing_by
  · exact leftSize_lt (by omega)
  · have := leftSize_pos n; omega

/-- The words of the digest. -/
def words (bytes : ByteArray) : Chain :=
  let node := subtree bytes 0 ((bytes.size + 1023) / 1024)
  { node with flags := node.flags ||| root }.compress

/-- A word in hexadecimal, its lowest byte first. -/
def hexWord (w : UInt32) : List Char :=
  [4, 0, 12, 8, 20, 16, 28, 24].map fun shift => Text.hexDigit ((w.toNat >>> shift) % 16)

/-- The digest in hexadecimal. -/
def hex (bytes : ByteArray) : String := String.ofList ((words bytes).toList.flatMap hexWord)

end PackageMap.Digest
