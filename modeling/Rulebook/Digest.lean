/-
  Digest.lean --- the BLAKE3 digest of a text.

  A text is cut into chunks of 1024 bytes and a chunk into blocks of 64 bytes.  The
  blocks of a chunk are compressed one after the other; the chunks are the leaves of
  a binary tree, joined in neighbouring pairs until one node is left.  A node keeps
  the input of its last compression, since the last node of all is compressed
  with the root flag.
-/
set_option autoImplicit false

namespace Rulebook

/-- A digest of 256 bits as eight words. -/
structure Digest where
  /-- The words, each to be written with its lowest byte first. -/
  words : Vector UInt32 8
deriving DecidableEq, Repr

namespace Digest

/-! ## Compression -/

/-- The initial chaining value. -/
def initial : Vector UInt32 8 :=
  #v[0x6A09E667, 0xBB67AE85, 0x3C6EF372, 0xA54FF53A, 0x510E527F, 0x9B05688C, 0x1F83D9AB, 0x5BE0CD19]

/-- Where each word of a block comes from in the next round. -/
def schedule : Vector (Fin 16) 16 := #v[2, 6, 3, 10, 7, 0, 4, 13, 1, 11, 12, 5, 9, 14, 15, 8]

/-- Rotate a word to the right. -/
def rotateRight (x : UInt32) (n : UInt32) : UInt32 := (x >>> n) ||| (x <<< (32 - n))

/-- Mix two words of a block into four words of the state. -/
def mix (v : Vector UInt32 16) (a b c d : Fin 16) (x y : UInt32) : Vector UInt32 16 :=
  let v := v.set a (v[a] + v[b] + x)
  let v := v.set d (rotateRight (v[d] ^^^ v[a]) 16)
  let v := v.set c (v[c] + v[d])
  let v := v.set b (rotateRight (v[b] ^^^ v[c]) 12)
  let v := v.set a (v[a] + v[b] + y)
  let v := v.set d (rotateRight (v[d] ^^^ v[a]) 8)
  let v := v.set c (v[c] + v[d])
  v.set b (rotateRight (v[b] ^^^ v[c]) 7)

/-- Mix a block into the state: its columns, then its diagonals. -/
def round (v m : Vector UInt32 16) : Vector UInt32 16 :=
  let v := mix v 0 4 8 12 m[0] m[1]
  let v := mix v 1 5 9 13 m[2] m[3]
  let v := mix v 2 6 10 14 m[4] m[5]
  let v := mix v 3 7 11 15 m[6] m[7]
  let v := mix v 0 5 10 15 m[8] m[9]
  let v := mix v 1 6 11 12 m[10] m[11]
  let v := mix v 2 7 8 13 m[12] m[13]
  mix v 3 4 9 14 m[14] m[15]

/-- Rounds, with the words of the block rearranged between them. -/
def rounds : Nat → Vector UInt32 16 → Vector UInt32 16 → Vector UInt32 16
  | 0, v, _ => v
  | n + 1, v, m => rounds n (round v m) (schedule.map fun i => m[i])

/-- The input of a compression. -/
structure Node where
  /-- The chaining value. -/
  chaining : Vector UInt32 8
  /-- The words of the block. -/
  block : Vector UInt32 16
  /-- The number of the chunk; zero above the leaves. -/
  counter : UInt64
  /-- The number of bytes in the block. -/
  length : UInt32
  /-- What the block is, as a sum of flags. -/
  flags : UInt32

/-- The flags: the first and the last block of a chunk, a node above the leaves,
and the last node. -/
def chunkStart : UInt32 := 1
def chunkEnd : UInt32 := 2
def parent : UInt32 := 4
def root : UInt32 := 8

/-- The chaining value that comes out of a compression. -/
def Node.compress (n : Node) : Vector UInt32 8 :=
  let start : Vector UInt32 16 :=
    n.chaining ++ #v[initial[0], initial[1], initial[2], initial[3],
      n.counter.toUInt32, (n.counter >>> 32).toUInt32, n.length, n.flags]
  let v := rounds 7 start n.block
  Vector.ofFn fun i : Fin 8 => v[i.val] ^^^ v[i.val + 8]

/-! ## Chunks -/

/-- The list in pieces of `n` elements, the last of them shorter. -/
def pieces {α : Type} (n : Nat) (xs : List α) : List (List α) :=
  match xs with
  | [] => []
  | x :: rest => (x :: rest.take (n - 1)) :: pieces n (rest.drop (n - 1))
termination_by xs.length
decreasing_by
  simp only [List.length_cons, List.length_drop]
  omega

/-- Four bytes as a word, lowest byte first; missing bytes are zero. -/
def wordOf (bytes : List UInt8) : UInt32 :=
  bytes.foldr (fun b w => (w <<< 8) ||| b.toUInt32) 0

/-- The words of a block; missing bytes are zero. -/
def blockOf (bytes : List UInt8) : Vector UInt32 16 :=
  let words := ((pieces 4 bytes).map wordOf).toArray
  Vector.ofFn fun i : Fin 16 => words.getD i.val 0

/-- Take the blocks of a chunk in.  The last block is kept as a node. -/
def chunkBlocks (counter : UInt64) : List (List UInt8) → Vector UInt32 8 → UInt32 → Node
  | [], chaining, start => ⟨chaining, blockOf [], counter, 0, start ||| chunkEnd⟩
  | [b], chaining, start =>
    ⟨chaining, blockOf b, counter, UInt32.ofNat b.length, start ||| chunkEnd⟩
  | b :: rest, chaining, start =>
    let node : Node := ⟨chaining, blockOf b, counter, UInt32.ofNat b.length, start⟩
    chunkBlocks counter rest node.compress 0

/-- The leaf of a chunk. -/
def chunk (bytes : List UInt8) (counter : Nat) : Node :=
  chunkBlocks (UInt64.ofNat counter) (pieces 64 bytes) initial chunkStart

/-! ## The tree -/

/-- The node above two nodes. -/
def join (left right : Node) : Node :=
  ⟨initial, left.compress ++ right.compress, 0, 64, parent⟩

/-- One level up: neighbours are joined, a last node alone moves up as it is. -/
def joinPairs : List Node → List Node
  | a :: b :: rest => join a b :: joinPairs rest
  | rest => rest

theorem length_joinPairs_le : ∀ ns : List Node, (joinPairs ns).length ≤ ns.length
  | [] => by simp [joinPairs]
  | [_] => by simp [joinPairs]
  | _ :: _ :: rest => by
    have := length_joinPairs_le rest
    simp only [joinPairs, List.length_cons]
    omega

/-- The last node of the tree over a leaf and the leaves after it. -/
def top (first : Node) (others : List Node) : Node :=
  match others with
  | [] => first
  | second :: rest => top (join first second) (joinPairs rest)
termination_by others.length
decreasing_by
  have := length_joinPairs_le rest
  simp only [List.length_cons]
  omega

/-- The digest of a sequence of bytes. -/
def ofBytes (bytes : List UInt8) : Digest :=
  let last := match (pieces 1024 bytes).mapIdx fun i c => chunk c i with
    | [] => chunk [] 0
    | first :: others => top first others
  ⟨{ last with counter := 0, flags := last.flags ||| root }.compress⟩

/-- The digest of a text in UTF-8. -/
def ofText (s : String) : Digest := ofBytes s.toUTF8.toList

/-! ## Text -/

/-- The bytes of a word, lowest first. -/
def bytesOf (w : UInt32) : List UInt8 :=
  [w.toUInt8, (w >>> 8).toUInt8, (w >>> 16).toUInt8, (w >>> 24).toUInt8]

/-- A byte in hexadecimal. -/
def byteText (b : UInt8) : List Char :=
  [Nat.digitChar (b.toNat / 16), Nat.digitChar (b.toNat % 16)]

/-- The digest in hexadecimal. -/
def text (d : Digest) : String :=
  String.ofList ((d.words.toList.flatMap bytesOf).flatMap byteText)

end Digest

end Rulebook
