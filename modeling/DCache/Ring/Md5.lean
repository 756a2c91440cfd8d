import DCache.Bytes
import DCache.Lib.While
import Mathlib.Data.Int.Bitwise
import Mathlib.Algebra.Order.Ring.Int

/-! `md5.c`, and the hash of `conhash_inter.c` that is made of its digest. `none` is a copy or a read
outside an array, or an `int` that is too large. -/
namespace DCache.Ring.Md5
open DCache.Lib

/-- `md5_word_t` -/
abbrev Word := BitVec 32

/-- What `md5_process` finds out about the machine. -/
inductive ByteOrder
  | little
  | big

/-- `abcd[4]` -/
structure Registers where
  a : Word
  b : Word
  c : Word
  d : Word
deriving DecidableEq

/-- `md5_byte_t buf[64]` -/
abbrev Buffer := {buf : List Byte // buf.length = 64}

/-- `md5_state_t` -/
structure State where
  count0 : Word
  count1 : Word
  abcd : Registers
  buf : Buffer

def tMask : Word := ~~~0

/-- `T1` to `T64` -/
def T : List Word :=
  [tMask ^^^ 0x28955b87, tMask ^^^ 0x173848a9, 0x242070db, tMask ^^^ 0x3e423111,
   tMask ^^^ 0x0a83f050, 0x4787c62a, tMask ^^^ 0x57cfb9ec, tMask ^^^ 0x02b96afe, 0x698098d8,
   tMask ^^^ 0x74bb0850, tMask ^^^ 0x0000a44e, tMask ^^^ 0x76a32841, 0x6b901122,
   tMask ^^^ 0x02678e6c, tMask ^^^ 0x5986bc71, 0x49b40821, tMask ^^^ 0x09e1da9d,
   tMask ^^^ 0x3fbf4cbf, 0x265e5a51, tMask ^^^ 0x16493855, tMask ^^^ 0x29d0efa2, 0x02441453,
   tMask ^^^ 0x275e197e, tMask ^^^ 0x182c0437, 0x21e1cde6, tMask ^^^ 0x3cc8f829,
   tMask ^^^ 0x0b2af278, 0x455a14ed, tMask ^^^ 0x561c16fa, tMask ^^^ 0x03105c07, 0x676f02d9,
   tMask ^^^ 0x72d5b375, tMask ^^^ 0x0005c6bd, tMask ^^^ 0x788e097e, 0x6d9d6122,
   tMask ^^^ 0x021ac7f3, tMask ^^^ 0x5b4115bb, 0x4bdecfa9, tMask ^^^ 0x0944b49f,
   tMask ^^^ 0x4140438f, 0x289b7ec6, tMask ^^^ 0x155ed805, tMask ^^^ 0x2b10cf7a, 0x04881d05,
   tMask ^^^ 0x262b2fc6, tMask ^^^ 0x1924661a, 0x1fa27cf8, tMask ^^^ 0x3b53a99a,
   tMask ^^^ 0x0bd6ddbb, 0x432aff97, tMask ^^^ 0x546bdc58, tMask ^^^ 0x036c5fc6, 0x655b59c3,
   tMask ^^^ 0x70f3336d, tMask ^^^ 0x00100b82, tMask ^^^ 0x7a7ba22e, 0x6fa87e4f,
   tMask ^^^ 0x01d3191f, tMask ^^^ 0x5cfebceb, 0x4e0811a1, tMask ^^^ 0x08ac817d,
   tMask ^^^ 0x42c50dca, 0x2ad7d2bb, tMask ^^^ 0x14792c6e]

/-- The local variables of `md5_process`. -/
inductive Var
  | a
  | b
  | c
  | d

def Registers.get (r : Registers) : Var → Word
  | .a => r.a
  | .b => r.b
  | .c => r.c
  | .d => r.d

def Registers.set (r : Registers) (v : Var) (x : Word) : Registers :=
  match v with
  | .a => { r with a := x }
  | .b => { r with b := x }
  | .c => { r with c := x }
  | .d => { r with d := x }

/-- `SET(a, b, c, d, k, s, Ti)`, with the number of the constant. -/
structure Operation where
  a : Var
  b : Var
  c : Var
  d : Var
  k : ℕ
  s : ℕ
  i : ℕ

def round1 : List Operation :=
  [⟨.a, .b, .c, .d, 0, 7, 1⟩, ⟨.d, .a, .b, .c, 1, 12, 2⟩,
   ⟨.c, .d, .a, .b, 2, 17, 3⟩, ⟨.b, .c, .d, .a, 3, 22, 4⟩,
   ⟨.a, .b, .c, .d, 4, 7, 5⟩, ⟨.d, .a, .b, .c, 5, 12, 6⟩,
   ⟨.c, .d, .a, .b, 6, 17, 7⟩, ⟨.b, .c, .d, .a, 7, 22, 8⟩,
   ⟨.a, .b, .c, .d, 8, 7, 9⟩, ⟨.d, .a, .b, .c, 9, 12, 10⟩,
   ⟨.c, .d, .a, .b, 10, 17, 11⟩, ⟨.b, .c, .d, .a, 11, 22, 12⟩,
   ⟨.a, .b, .c, .d, 12, 7, 13⟩, ⟨.d, .a, .b, .c, 13, 12, 14⟩,
   ⟨.c, .d, .a, .b, 14, 17, 15⟩, ⟨.b, .c, .d, .a, 15, 22, 16⟩]

def round2 : List Operation :=
  [⟨.a, .b, .c, .d, 1, 5, 17⟩, ⟨.d, .a, .b, .c, 6, 9, 18⟩,
   ⟨.c, .d, .a, .b, 11, 14, 19⟩, ⟨.b, .c, .d, .a, 0, 20, 20⟩,
   ⟨.a, .b, .c, .d, 5, 5, 21⟩, ⟨.d, .a, .b, .c, 10, 9, 22⟩,
   ⟨.c, .d, .a, .b, 15, 14, 23⟩, ⟨.b, .c, .d, .a, 4, 20, 24⟩,
   ⟨.a, .b, .c, .d, 9, 5, 25⟩, ⟨.d, .a, .b, .c, 14, 9, 26⟩,
   ⟨.c, .d, .a, .b, 3, 14, 27⟩, ⟨.b, .c, .d, .a, 8, 20, 28⟩,
   ⟨.a, .b, .c, .d, 13, 5, 29⟩, ⟨.d, .a, .b, .c, 2, 9, 30⟩,
   ⟨.c, .d, .a, .b, 7, 14, 31⟩, ⟨.b, .c, .d, .a, 12, 20, 32⟩]

def round3 : List Operation :=
  [⟨.a, .b, .c, .d, 5, 4, 33⟩, ⟨.d, .a, .b, .c, 8, 11, 34⟩,
   ⟨.c, .d, .a, .b, 11, 16, 35⟩, ⟨.b, .c, .d, .a, 14, 23, 36⟩,
   ⟨.a, .b, .c, .d, 1, 4, 37⟩, ⟨.d, .a, .b, .c, 4, 11, 38⟩,
   ⟨.c, .d, .a, .b, 7, 16, 39⟩, ⟨.b, .c, .d, .a, 10, 23, 40⟩,
   ⟨.a, .b, .c, .d, 13, 4, 41⟩, ⟨.d, .a, .b, .c, 0, 11, 42⟩,
   ⟨.c, .d, .a, .b, 3, 16, 43⟩, ⟨.b, .c, .d, .a, 6, 23, 44⟩,
   ⟨.a, .b, .c, .d, 9, 4, 45⟩, ⟨.d, .a, .b, .c, 12, 11, 46⟩,
   ⟨.c, .d, .a, .b, 15, 16, 47⟩, ⟨.b, .c, .d, .a, 2, 23, 48⟩]

def round4 : List Operation :=
  [⟨.a, .b, .c, .d, 0, 6, 49⟩, ⟨.d, .a, .b, .c, 7, 10, 50⟩,
   ⟨.c, .d, .a, .b, 14, 15, 51⟩, ⟨.b, .c, .d, .a, 5, 21, 52⟩,
   ⟨.a, .b, .c, .d, 12, 6, 53⟩, ⟨.d, .a, .b, .c, 3, 10, 54⟩,
   ⟨.c, .d, .a, .b, 10, 15, 55⟩, ⟨.b, .c, .d, .a, 1, 21, 56⟩,
   ⟨.a, .b, .c, .d, 8, 6, 57⟩, ⟨.d, .a, .b, .c, 15, 10, 58⟩,
   ⟨.c, .d, .a, .b, 6, 15, 59⟩, ⟨.b, .c, .d, .a, 13, 21, 60⟩,
   ⟨.a, .b, .c, .d, 4, 6, 61⟩, ⟨.d, .a, .b, .c, 11, 10, 62⟩,
   ⟨.c, .d, .a, .b, 2, 15, 63⟩, ⟨.b, .c, .d, .a, 9, 21, 64⟩]

def rotateLeft (x : Word) (n : ℕ) : Word := x <<< n ||| x >>> (32 - n)

def F (x y z : Word) : Word := x &&& y ||| ~~~x &&& z

def G (x y z : Word) : Word := x &&& z ||| y &&& ~~~z

def H (x y z : Word) : Word := x ^^^ y ^^^ z

def I (x y z : Word) : Word := y ^^^ (x ||| ~~~z)

def set (f : Word → Word → Word → Word) (X : ℕ → Word) (r : Registers) (o : Operation) :
    Registers :=
  let t := r.get o.a + f (r.get o.b) (r.get o.c) (r.get o.d) + X o.k + T.getD (o.i - 1) 0
  r.set o.a (rotateLeft t o.s + r.get o.b)

/-- `X[k]`. A machine of the one byte order reads the word where it stands, the code for the other one
puts it together. -/
def word (order : ByteOrder) (data : List Byte) (k : ℕ) : Word :=
  let xp := fun i => (data.getD (4 * k + i) 0).val
  match order with
  | .little => BitVec.ofNat 32 (xp 0 + 2 ^ 8 * (xp 1 + 2 ^ 8 * (xp 2 + 2 ^ 8 * xp 3)))
  | .big => BitVec.ofNat 32 (xp 0) + BitVec.ofNat 32 (xp 1) <<< 8 +
      BitVec.ofNat 32 (xp 2) <<< 16 + BitVec.ofNat 32 (xp 3) <<< 24

def process (order : ByteOrder) (abcd : Registers) (data : List Byte) : Registers :=
  let X := word order data
  let r := round1.foldl (set F X) abcd
  let r := round2.foldl (set G X) r
  let r := round3.foldl (set H X) r
  let r := round4.foldl (set I X) r
  ⟨abcd.a + r.a, abcd.b + r.b, abcd.c + r.c, abcd.d + r.d⟩

def initial : Registers :=
  ⟨0x67452301, tMask ^^^ 0x10325476, tMask ^^^ 0x67452301, 0x10325476⟩

/-- `buf` keeps what was there. -/
def init (pms : State) : State := ⟨0, 0, initial, pms.buf⟩

theorem length_memcpy (dst : Buffer) {src : List Byte} {offset n : ℕ}
    (h : offset + n ≤ 64 ∧ n ≤ src.length) :
    (dst.1.take offset ++ src.take n ++ dst.1.drop (offset + n)).length = 64 := by
  have hdst := dst.2
  simp only [List.length_append, List.length_take, List.length_drop]
  omega

/-- `memcpy(dst + offset, src, n)` -/
def memcpy (dst : Buffer) (offset : ℕ) (src : List Byte) (n : ℕ) : Option Buffer :=
  if h : offset + n ≤ 64 ∧ n ≤ src.length then some ⟨_, length_memcpy dst h⟩ else none

/-- One round of the loop over full blocks. The state is `abcd`, `p` and `left`. -/
def fullBlock (order : ByteOrder) (x : Registers × List Byte × ℕ) :
    Option (Registers × List Byte × ℕ) :=
  if 64 ≤ x.2.1.length then
    some (process order x.1 (x.2.1.take 64), x.2.1.drop 64, x.2.2 - 64)
  else none

/-- `md5_append` from the full blocks on. -/
def appendBlocks (order : ByteOrder) (pms : State) (p : List Byte) (left : ℕ) : Option State := do
  let (abcd, p, left) ← whileLoop (fun x => some (64 ≤ x.2.2)) (fullBlock order) (left / 64)
    (pms.abcd, p, left)
  let buf ← if left ≠ 0 then memcpy pms.buf 0 p left else some pms.buf
  some { pms with abcd := abcd, buf := buf }

/-- `md5_append` from the partial block on. -/
def appendBytes (order : ByteOrder) (pms : State) (offset : ℕ) (data : List Byte) (n : ℕ) :
    Option State :=
  if offset ≠ 0 then
    -- `offset + nbytes` is an `int`
    if 2 ^ 31 ≤ offset + n then none
    else do
      let copy := if 64 < offset + n then 64 - offset else n
      let buf ← memcpy pms.buf offset data copy
      if offset + copy < 64 then some { pms with buf := buf }
      else
        appendBlocks order { pms with abcd := process order pms.abcd buf.1, buf := buf }
          (data.drop copy) (n - copy)
  else appendBlocks order pms data n

def append (order : ByteOrder) (pms : State) (data : List Byte) (nbytes : ℤ) : Option State :=
  let offset := (pms.count0 >>> 3 &&& 63).toNat
  let nbits : Word := BitVec.ofInt 32 nbytes <<< 3
  if nbytes ≤ 0 then some pms
  else
    let count1 := pms.count1 + BitVec.ofInt 32 (nbytes >>> (29 : ℕ))
    let count0 := pms.count0 + nbits
    let count1 := if count0 < nbits then count1 + 1 else count1
    appendBytes order ⟨count0, count1, pms.abcd, pms.buf⟩ offset data nbytes.toNat

def pad : List Byte := 0x80 :: List.replicate 63 0

/-- `(md5_byte_t)(x >> ((i & 3) << 3))` -/
def byte (x : Word) (i : ℕ) : Byte := Fin.ofNat 256 (x >>> ((i &&& 3) <<< 3)).toNat

/-- The sixteen bytes of the digest. -/
def digest (r : Registers) : List Byte :=
  (List.range 16).map fun i => byte ([r.a, r.b, r.c, r.d].getD (i >>> 2) 0) i

def finish (order : ByteOrder) (pms : State) : Option (List Byte) := do
  let data := (List.range 8).map fun i => byte ([pms.count0, pms.count1].getD (i >>> 2) 0) i
  let pms ← append order pms pad ((((55 : Word) - pms.count0 >>> 3) &&& 63) + 1).toInt
  let pms ← append order pms data 8
  some (digest pms.abcd)

/-- `strlen` gives a `size_t`, and `md5_append` takes an `int`. `md5state` is not initialised. -/
def conhashMd5Digest (order : ByteOrder) (md5state : State) (instr : Str) : Option (List Byte) := do
  let s := cstr instr
  let md5state ← append order (init md5state) s (BitVec.ofNat 32 s.length).toInt
  finish order md5state

/-- `__conhash_hash_def` -/
def conhashHashDef (order : ByteOrder) (md5state : State) (instr : Str) : Option ℤ := do
  let digest ← conhashMd5Digest order md5state instr
  let byte := fun i => BitVec.ofNat 64 (digest.getD i 0).val &&& 0xFF
  let hash := (List.range 4).foldl (fun hash i => hash + (byte (i * 4 + 3) <<< 24 |||
    byte (i * 4 + 2) <<< 16 ||| byte (i * 4 + 1) <<< 8 ||| byte (i * 4))) (0 : BitVec 64)
  some hash.toInt

end DCache.Ring.Md5
