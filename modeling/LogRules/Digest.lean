/-!
The BLAKE3 digest: 256 bits of a list of bytes. Blocks of 64 bytes are compressed in turn, chunks of
1024 bytes are joined in a binary tree, and the root of the tree is the digest.
-/
namespace LogRules.Digest

-- The instance of the core library, whatever else a file has in scope.
attribute [local instance (high)] instPowNat

/-- A state of sixteen words, also a block of a message as words. -/
abbrev Words := Vector UInt32 16

/-- A chaining value: what a chunk or a subtree passes upward. -/
abbrev Chain := Vector UInt32 8

def initial : Chain :=
  #v[0x6a09e667, 0xbb67ae85, 0x3c6ef372, 0xa54ff53a, 0x510e527f, 0x9b05688c, 0x1f83d9ab, 0x5be0cd19]

def chunkStart : UInt32 := 1
def chunkEnd : UInt32 := 2
def parent : UInt32 := 4
def root : UInt32 := 8

def rotateRight (word count : UInt32) : UInt32 := (word >>> count) ||| (word <<< (32 - count))

/-- Mixes two message words into one column or diagonal of the state. -/
def mix (s : Words) (a b c d : Fin 16) (x y : UInt32) : Words :=
  let a₁ := s[a] + s[b] + x
  let d₁ := rotateRight (s[d] ^^^ a₁) 16
  let c₁ := s[c] + d₁
  let b₁ := rotateRight (s[b] ^^^ c₁) 12
  let a₂ := a₁ + b₁ + y
  let d₂ := rotateRight (d₁ ^^^ a₂) 8
  let c₂ := c₁ + d₂
  let b₂ := rotateRight (b₁ ^^^ c₂) 7
  (((s.set a a₂).set b b₂).set c c₂).set d d₂

/-- The columns, then the diagonals. -/
def round (s m : Words) : Words :=
  let s := mix s 0 4 8 12 m[0] m[1]
  let s := mix s 1 5 9 13 m[2] m[3]
  let s := mix s 2 6 10 14 m[4] m[5]
  let s := mix s 3 7 11 15 m[6] m[7]
  let s := mix s 0 5 10 15 m[8] m[9]
  let s := mix s 1 6 11 12 m[10] m[11]
  let s := mix s 2 7 8 13 m[12] m[13]
  mix s 3 4 9 14 m[14] m[15]

/-- The order in which the next round takes the message words. -/
def permute (m : Words) : Words :=
  #v[m[2], m[6], m[3], m[10], m[7], m[0], m[4], m[13],
    m[1], m[11], m[12], m[5], m[9], m[14], m[15], m[8]]

def rounds : Nat → Words → Words → Words
  | 0, s, _ => s
  | n + 1, s, m => rounds n (round s m) (permute m)

/-- Compresses a block of `length` bytes into a chaining value. -/
def compress (chain : Chain) (block : Words) (counter : Nat) (length flags : UInt32) : Chain :=
  let start : Words :=
    #v[chain[0], chain[1], chain[2], chain[3], chain[4], chain[5], chain[6], chain[7],
      initial[0], initial[1], initial[2], initial[3],
      UInt32.ofNat counter, UInt32.ofNat (counter / 2 ^ (32 : Nat)), length, flags]
  let s := rounds 7 start block
  Vector.ofFn fun i : Fin 8 => s[i.val] ^^^ s[i.val + 8]

/-- A word from four bytes, the least significant first. -/
def word (bytes : List UInt8) : UInt32 :=
  bytes.foldr (fun byte rest => byte.toUInt32 ||| (rest <<< 8)) 0

def wordBytes (w : UInt32) : List UInt8 :=
  [w.toUInt8, (w >>> 8).toUInt8, (w >>> 16).toUInt8, (w >>> 24).toUInt8]

/-- The words of a block; missing bytes are zero. -/
def blockWords (bytes : List UInt8) : Words :=
  Vector.ofFn fun i : Fin 16 => word ((bytes.drop (4 * i.val)).take 4)

/-- The blocks of a chunk in turn; `flags` marks the last of them. -/
def compressBlocks (counter : Nat) (flags : UInt32) :
    Nat → UInt32 → Chain → List UInt8 → Chain
  | 0, _, chain, _ => chain
  | n + 1, start, chain, bytes =>
    let block := blockWords (bytes.take 64)
    if bytes.length ≤ 64 then
      compress chain block counter (UInt32.ofNat bytes.length) (start ||| chunkEnd ||| flags)
    else
      compressBlocks counter flags n 0 (compress chain block counter 64 start) (bytes.drop 64)

/-- A chunk of at most 1024 bytes. -/
def chunk (counter : Nat) (flags : UInt32) (bytes : List UInt8) : Chain :=
  compressBlocks counter flags 16 chunkStart initial bytes

/-- How many bytes the left subtree takes: the largest power of two of whole chunks that leaves
some to the right. -/
def leftSize (length : Nat) : Nat := 1024 * 2 ^ ((length - 1) / 1024).log2

/-- The tree over the chunks from number `counter` on; its depth is at most the fuel. -/
def subtree : Nat → Nat → UInt32 → List UInt8 → Chain
  | 0, counter, flags, bytes => chunk counter flags bytes
  | fuel + 1, counter, flags, bytes =>
    if bytes.length ≤ 1024 then chunk counter flags bytes
    else
      let size := leftSize bytes.length
      let left := subtree fuel counter 0 (bytes.take size)
      let right := subtree fuel (counter + size / 1024) 0 (bytes.drop size)
      compress initial (Vector.cast rfl (left ++ right)) 0 64 (parent ||| flags)

/-- The digest of a list of bytes, 32 bytes long. -/
def ofBytes (bytes : List UInt8) : List UInt8 :=
  (subtree bytes.length.log2 0 root bytes).toList.flatMap wordBytes

end LogRules.Digest
