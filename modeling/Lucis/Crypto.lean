import Lucis.Library.BlockPadding
import Lucis.Memory

/-!
The digests of builtins/crypto/crypto.c and the keyed digest over one of them. Reads
and writes are checked against the buffer they are made in, so one outside it is a
fault (`none`). The host is little-endian and allocations succeed. The four digests
pad their message and go through its blocks in the same way: they are one `Hash` with
their own numbers, length field and block function.
-/

namespace Lucis.Crypto

open Memory BlockPadding

section Words

def le32 (buf : List UInt8) (p : Nat) : Option UInt32 := do
  let b0 ← load buf p
  let b1 ← load buf (p + 1)
  let b2 ← load buf (p + 2)
  let b3 ← load buf (p + 3)
  some (b0.toUInt32 ||| (b1.toUInt32 <<< 8) ||| (b2.toUInt32 <<< 16) ||| (b3.toUInt32 <<< 24))

/-- `sha1_be32`, `sha256_be32` -/
def be32 (buf : List UInt8) (p : Nat) : Option UInt32 := do
  let b0 ← load buf p
  let b1 ← load buf (p + 1)
  let b2 ← load buf (p + 2)
  let b3 ← load buf (p + 3)
  some ((b0.toUInt32 <<< 24) ||| (b1.toUInt32 <<< 16) ||| (b2.toUInt32 <<< 8) ||| b3.toUInt32)

def sha512Be64 (buf : List UInt8) (p : Nat) : Option UInt64 :=
  (List.range 8).foldlM (fun v i => (load buf (p + i)).map fun byte => (v <<< 8) ||| byte.toUInt64) 0

/-- `sha1_store_be32`, `sha256_store_be32` -/
def storeBe32 (v : UInt32) : List UInt8 := bigEndian 4 v.toNat

/-- `sha512_store_be64`, from its last byte to its first -/
def sha512StoreBe64 : Nat → List UInt8 → Nat → UInt64 → Option (List UInt8)
  | 0, buf, _, _ => some buf
  | i + 1, buf, p, v =>
    (store buf (p + i) v.toUInt8).bind fun buf => sha512StoreBe64 i buf p (v >>> 8)

end Words

section Md5

def md5K : List UInt32 := [
    0xd76aa478, 0xe8c7b756, 0x242070db, 0xc1bdceee, 0xf57c0faf, 0x4787c62a, 0xa8304613, 0xfd469501,
    0x698098d8, 0x8b44f7af, 0xffff5bb1, 0x895cd7be, 0x6b901122, 0xfd987193, 0xa679438e, 0x49b40821,
    0xf61e2562, 0xc040b340, 0x265e5a51, 0xe9b6c7aa, 0xd62f105d, 0x02441453, 0xd8a1e681, 0xe7d3fbc8,
    0x21e1cde6, 0xc33707d6, 0xf4d50d87, 0x455a14ed, 0xa9e3e905, 0xfcefa3f8, 0x676f02d9, 0x8d2a4c8a,
    0xfffa3942, 0x8771f681, 0x6d9d6122, 0xfde5380c, 0xa4beea44, 0x4bdecfa9, 0xf6bb4b60, 0xbebfbc70,
    0x289b7ec6, 0xeaa127fa, 0xd4ef3085, 0x04881d05, 0xd9d4d039, 0xe6db99e5, 0x1fa27cf8, 0xc4ac5665,
    0xf4292244, 0x432aff97, 0xab9423a7, 0xfc93a039, 0x655b59c3, 0x8f0ccc92, 0xffeff47d, 0x85845dd1,
    0x6fa87e4f, 0xfe2ce6e0, 0xa3014314, 0x4e0811a1, 0xf7537e82, 0xbd3af235, 0x2ad7d2bb, 0xeb86d391]

def md5S : List UInt32 := [
    7, 12, 17, 22, 7, 12, 17, 22, 7, 12, 17, 22, 7, 12, 17, 22,
    5, 9, 14, 20, 5, 9, 14, 20, 5, 9, 14, 20, 5, 9, 14, 20,
    4, 11, 16, 23, 4, 11, 16, 23, 4, 11, 16, 23, 4, 11, 16, 23,
    6, 10, 15, 21, 6, 10, 15, 21, 6, 10, 15, 21, 6, 10, 15, 21]

def md5Rotl (x c : UInt32) : UInt32 := (x <<< c) ||| (x >>> (32 - c))

structure Md5State where
  a : UInt32
  b : UInt32
  c : UInt32
  d : UInt32

/-- `f` and `g` of a round. -/
def md5Select (s : Md5State) (i : Nat) : UInt32 × Nat :=
  if i < 16 then ((s.b &&& s.c) ||| (~~~s.b &&& s.d), i)
  else if i < 32 then ((s.d &&& s.b) ||| (~~~s.d &&& s.c), (5 * i + 1) % 16)
  else if i < 48 then (s.b ^^^ s.c ^^^ s.d, (3 * i + 5) % 16)
  else (s.c ^^^ (s.b ||| ~~~s.d), (7 * i) % 16)

def md5Round (m : Nat → Option UInt32) (s : Md5State) (i : Nat) : Option Md5State :=
  (m (md5Select s i).2).map fun word =>
    let f := (md5Select s i).1 + s.a + md5K.getD i 0 + word
    ⟨s.d, s.b + md5Rotl f (md5S.getD i 0), s.b, s.c⟩

/-- The body of the block loop: `m` is the buffer at `off`, read as words of the host. -/
def md5Block (buf : List UInt8) (off : Nat) (s : Md5State) : Option Md5State :=
  ((List.range 64).foldlM (md5Round fun g => le32 buf (off + 4 * g)) s).map fun t =>
    ⟨s.a + t.a, s.b + t.b, s.c + t.c, s.d + t.d⟩

end Md5

section Sha1

def sha1Rotl (x n : UInt32) : UInt32 := (x <<< n) ||| (x >>> (32 - n))

structure Sha1State where
  a : UInt32
  b : UInt32
  c : UInt32
  d : UInt32
  e : UInt32

def sha1Schedule (words : List UInt32) : List UInt32 :=
  (List.range' 16 64).foldl (fun w i =>
    w ++ [sha1Rotl (w.getD (i - 3) 0 ^^^ w.getD (i - 8) 0 ^^^ w.getD (i - 14) 0 ^^^
      w.getD (i - 16) 0) 1]) words

def sha1Round (w : List UInt32) (s : Sha1State) (i : Nat) : Sha1State :=
  let (f, k) : UInt32 × UInt32 :=
    if i < 20 then ((s.b &&& s.c) ||| (~~~s.b &&& s.d), 0x5A827999)
    else if i < 40 then (s.b ^^^ s.c ^^^ s.d, 0x6ED9EBA1)
    else if i < 60 then ((s.b &&& s.c) ||| (s.b &&& s.d) ||| (s.c &&& s.d), 0x8F1BBCDC)
    else (s.b ^^^ s.c ^^^ s.d, 0xCA62C1D6)
  ⟨sha1Rotl s.a 5 + f + s.e + k + w.getD i 0, s.a, sha1Rotl s.b 30, s.c, s.d⟩

def sha1Block (buf : List UInt8) (off : Nat) (s : Sha1State) : Option Sha1State :=
  ((List.range 16).mapM fun i => be32 buf (off + i * 4)).map fun words =>
    let t := (List.range 80).foldl (sha1Round (sha1Schedule words)) s
    ⟨s.a + t.a, s.b + t.b, s.c + t.c, s.d + t.d, s.e + t.e⟩

end Sha1

section Sha2

structure Sha2 (Word : Type) where
  rounds : Nat
  k : List Word
  s0 : Word → Word
  s1 : Word → Word
  upperS0 : Word → Word
  upperS1 : Word → Word

structure Sha2State (Word : Type) where
  a : Word
  b : Word
  c : Word
  d : Word
  e : Word
  f : Word
  g : Word
  h : Word

variable {Word : Type} [Add Word] [AndOp Word] [XorOp Word] [Complement Word] [Inhabited Word]

def sha2Schedule (p : Sha2 Word) (words : List Word) : List Word :=
  (List.range' 16 (p.rounds - 16)).foldl (fun w i =>
    w ++ [w.getD (i - 16) default + p.s0 (w.getD (i - 15) default) + w.getD (i - 7) default +
      p.s1 (w.getD (i - 2) default)]) words

def sha2Round (p : Sha2 Word) (w : List Word) (s : Sha2State Word) (i : Nat) : Sha2State Word :=
  let ch := (s.e &&& s.f) ^^^ (~~~s.e &&& s.g)
  let t1 := s.h + p.upperS1 s.e + ch + p.k.getD i default + w.getD i default
  let maj := (s.a &&& s.b) ^^^ (s.a &&& s.c) ^^^ (s.b &&& s.c)
  let t2 := p.upperS0 s.a + maj
  ⟨t1 + t2, s.a, s.b, s.c, s.d + t1, s.e, s.f, s.g⟩

def sha2Block (p : Sha2 Word) (words : Option (List Word)) (s : Sha2State Word) :
    Option (Sha2State Word) :=
  words.map fun words =>
    let t := (List.range p.rounds).foldl (sha2Round p (sha2Schedule p words)) s
    ⟨s.a + t.a, s.b + t.b, s.c + t.c, s.d + t.d, s.e + t.e, s.f + t.f, s.g + t.g, s.h + t.h⟩

def sha256K : List UInt32 := [
    0x428a2f98, 0x71374491, 0xb5c0fbcf, 0xe9b5dba5, 0x3956c25b, 0x59f111f1, 0x923f82a4, 0xab1c5ed5,
    0xd807aa98, 0x12835b01, 0x243185be, 0x550c7dc3, 0x72be5d74, 0x80deb1fe, 0x9bdc06a7, 0xc19bf174,
    0xe49b69c1, 0xefbe4786, 0x0fc19dc6, 0x240ca1cc, 0x2de92c6f, 0x4a7484aa, 0x5cb0a9dc, 0x76f988da,
    0x983e5152, 0xa831c66d, 0xb00327c8, 0xbf597fc7, 0xc6e00bf3, 0xd5a79147, 0x06ca6351, 0x14292967,
    0x27b70a85, 0x2e1b2138, 0x4d2c6dfc, 0x53380d13, 0x650a7354, 0x766a0abb, 0x81c2c92e, 0x92722c85,
    0xa2bfe8a1, 0xa81a664b, 0xc24b8b70, 0xc76c51a3, 0xd192e819, 0xd6990624, 0xf40e3585, 0x106aa070,
    0x19a4c116, 0x1e376c08, 0x2748774c, 0x34b0bcb5, 0x391c0cb3, 0x4ed8aa4a, 0x5b9cca4f, 0x682e6ff3,
    0x748f82ee, 0x78a5636f, 0x84c87814, 0x8cc70208, 0x90befffa, 0xa4506ceb, 0xbef9a3f7, 0xc67178f2]

def sha256Rotr (x n : UInt32) : UInt32 := (x >>> n) ||| (x <<< (32 - n))

def sha256Rounds : Sha2 UInt32 where
  rounds := 64
  k := sha256K
  s0 x := sha256Rotr x 7 ^^^ sha256Rotr x 18 ^^^ (x >>> 3)
  s1 x := sha256Rotr x 17 ^^^ sha256Rotr x 19 ^^^ (x >>> 10)
  upperS0 x := sha256Rotr x 2 ^^^ sha256Rotr x 13 ^^^ sha256Rotr x 22
  upperS1 x := sha256Rotr x 6 ^^^ sha256Rotr x 11 ^^^ sha256Rotr x 25

def sha256Block (buf : List UInt8) (off : Nat) (s : Sha2State UInt32) : Option (Sha2State UInt32) :=
  sha2Block sha256Rounds ((List.range 16).mapM fun i => be32 buf (off + i * 4)) s

def sha512K : List UInt64 := [
    0x428a2f98d728ae22, 0x7137449123ef65cd, 0xb5c0fbcfec4d3b2f, 0xe9b5dba58189dbbc,
    0x3956c25bf348b538, 0x59f111f1b605d019, 0x923f82a4af194f9b, 0xab1c5ed5da6d8118,
    0xd807aa98a3030242, 0x12835b0145706fbe, 0x243185be4ee4b28c, 0x550c7dc3d5ffb4e2,
    0x72be5d74f27b896f, 0x80deb1fe3b1696b1, 0x9bdc06a725c71235, 0xc19bf174cf692694,
    0xe49b69c19ef14ad2, 0xefbe4786384f25e3, 0x0fc19dc68b8cd5b5, 0x240ca1cc77ac9c65,
    0x2de92c6f592b0275, 0x4a7484aa6ea6e483, 0x5cb0a9dcbd41fbd4, 0x76f988da831153b5,
    0x983e5152ee66dfab, 0xa831c66d2db43210, 0xb00327c898fb213f, 0xbf597fc7beef0ee4,
    0xc6e00bf33da88fc2, 0xd5a79147930aa725, 0x06ca6351e003826f, 0x142929670a0e6e70,
    0x27b70a8546d22ffc, 0x2e1b21385c26c926, 0x4d2c6dfc5ac42aed, 0x53380d139d95b3df,
    0x650a73548baf63de, 0x766a0abb3c77b2a8, 0x81c2c92e47edaee6, 0x92722c851482353b,
    0xa2bfe8a14cf10364, 0xa81a664bbc423001, 0xc24b8b70d0f89791, 0xc76c51a30654be30,
    0xd192e819d6ef5218, 0xd69906245565a910, 0xf40e35855771202a, 0x106aa07032bbd1b8,
    0x19a4c116b8d2d0c8, 0x1e376c085141ab53, 0x2748774cdf8eeb99, 0x34b0bcb5e19b48a8,
    0x391c0cb3c5c95a63, 0x4ed8aa4ae3418acb, 0x5b9cca4f7763e373, 0x682e6ff3d6b2b8a3,
    0x748f82ee5defb2fc, 0x78a5636f43172f60, 0x84c87814a1f0ab72, 0x8cc702081a6439ec,
    0x90befffa23631e28, 0xa4506cebde82bde9, 0xbef9a3f7b2c67915, 0xc67178f2e372532b,
    0xca273eceea26619c, 0xd186b8c721c0c207, 0xeada7dd6cde0eb1e, 0xf57d4f7fee6ed178,
    0x06f067aa72176fba, 0x0a637dc5a2c898a6, 0x113f9804bef90dae, 0x1b710b35131c471b,
    0x28db77f523047d84, 0x32caab7b40c72493, 0x3c9ebe0a15c9bebc, 0x431d67c49c100d4c,
    0x4cc5d4becb3e42b6, 0x597f299cfc657e2a, 0x5fcb6fab3ad6faec, 0x6c44198c4a475817]

def sha512Rotr (x n : UInt64) : UInt64 := (x >>> n) ||| (x <<< (64 - n))

def sha512Rounds : Sha2 UInt64 where
  rounds := 80
  k := sha512K
  s0 x := sha512Rotr x 1 ^^^ sha512Rotr x 8 ^^^ (x >>> 7)
  s1 x := sha512Rotr x 19 ^^^ sha512Rotr x 61 ^^^ (x >>> 6)
  upperS0 x := sha512Rotr x 28 ^^^ sha512Rotr x 34 ^^^ sha512Rotr x 39
  upperS1 x := sha512Rotr x 14 ^^^ sha512Rotr x 18 ^^^ sha512Rotr x 41

def sha512Block (buf : List UInt8) (off : Nat) (s : Sha2State UInt64) : Option (Sha2State UInt64) :=
  sha2Block sha512Rounds ((List.range 16).mapM fun i => sha512Be64 buf (off + i * 8)) s

end Sha2

section Hashes

theorem mod_step {block : Nat} (positive : 0 < block) (n : Nat) :
    (n + 1) % block = n % block + 1 ∧ n % block + 1 < block ∨
      (n + 1) % block = 0 ∧ n % block + 1 = block := by
  have small := Nat.mod_lt n positive
  rw [← Nat.mod_add_mod n block 1]
  rcases Nat.lt_or_ge (n % block + 1) block with inside | last
  · exact .inl ⟨Nat.mod_eq_of_lt inside, inside⟩
  · have full : n % block + 1 = block := by omega
    exact .inr ⟨by rw [full, Nat.mod_self], full⟩

/-- `while (new_len % block != rest) new_len++;` -/
def padTo (block rest : Nat) (inside : rest < block) (newLen : Nat) : Nat :=
  if newLen % block = rest then newLen else padTo block rest inside (newLen + 1)
termination_by
  if newLen % block ≤ rest then rest - newLen % block else rest + block - newLen % block
decreasing_by
  have step := mod_step (Nat.zero_lt_of_lt inside) newLen
  split <;> split <;> omega

structure Hash (State : Type) where
  block : Nat
  rest : Nat
  inside : rest < block
  /-- the bytes behind `new_len`, for the length of the message -/
  tail : Nat
  putBits : List UInt8 → Nat → UInt64 → Option (List UInt8)
  init : State
  compress : List UInt8 → Nat → State → Option State
  output : State → List UInt8

namespace Hash

variable {State : Type} (d : Hash State)

def newLen (len : Nat) : Nat := padTo d.block d.rest d.inside (len + 1)

/-- `buf` in front of the block loop. -/
def fillBuf (msg : List UInt8) : Option (List UInt8) := do
  let newLen := d.newLen msg.length
  let buf ← copyFrom (List.replicate (newLen + d.tail) 0) 0 msg 0 msg.length
  let buf ← store buf msg.length 0x80
  d.putBits buf newLen (UInt64.ofNat msg.length * 8)

/-- `for (size_t off = 0; off < new_len + tail; off += block)` -/
def blockLoop (limit : Nat) (buf : List UInt8) (off : Nat) (s : State) : Option State :=
  if off < limit then
    (d.compress buf off s).bind (blockLoop limit buf (off + d.block))
  else some s
termination_by limit - off
decreasing_by
  have positive := Nat.zero_lt_of_lt d.inside
  omega

def digest (msg : List UInt8) : Option (List UInt8) := do
  let buf ← d.fillBuf msg
  let s ← d.blockLoop (d.newLen msg.length + d.tail) buf 0 d.init
  some (d.output s)

end Hash

/-- `buf[new_len + i] = (uint8_t)(bits >> (56 - 8*i))` -/
def putBitsBe (buf : List UInt8) (newLen : Nat) (bits : UInt64) : Option (List UInt8) :=
  (List.range 8).foldlM (fun buf i =>
    store buf (newLen + i) (bits >>> UInt64.ofNat (56 - 8 * i)).toUInt8) buf

def md5 : Hash Md5State where
  block := 64
  rest := 56
  inside := by decide
  tail := 8
  putBits buf newLen bits := copyFrom buf newLen (littleEndian 8 bits.toNat) 0 8
  init := ⟨0x67452301, 0xefcdab89, 0x98badcfe, 0x10325476⟩
  compress := md5Block
  output s := [s.a, s.b, s.c, s.d].flatMap fun word => littleEndian 4 word.toNat

def sha1 : Hash Sha1State where
  block := 64
  rest := 56
  inside := by decide
  tail := 8
  putBits := putBitsBe
  init := ⟨0x67452301, 0xEFCDAB89, 0x98BADCFE, 0x10325476, 0xC3D2E1F0⟩
  compress := sha1Block
  output s := [s.a, s.b, s.c, s.d, s.e].flatMap storeBe32

def sha256 : Hash (Sha2State UInt32) where
  block := 64
  rest := 56
  inside := by decide
  tail := 8
  putBits := putBitsBe
  init := ⟨0x6a09e667, 0xbb67ae85, 0x3c6ef372, 0xa54ff53a,
    0x510e527f, 0x9b05688c, 0x1f83d9ab, 0x5be0cd19⟩
  compress := sha256Block
  output s := [s.a, s.b, s.c, s.d, s.e, s.f, s.g, s.h].flatMap storeBe32

def sha512 : Hash (Sha2State UInt64) where
  block := 128
  rest := 112
  inside := by decide
  tail := 16
  -- the upper half of the field is left as `calloc` gave it
  putBits buf newLen bits := sha512StoreBe64 8 buf (newLen + 8) bits
  init := ⟨0x6a09e667f3bcc908, 0xbb67ae8584caa73b, 0x3c6ef372fe94f82b, 0xa54ff53a5f1d36f1,
    0x510e527fade682d1, 0x9b05688c2b3e6c1f, 0x1f83d9abfb41bd6b, 0x5be0cd19137e2179⟩
  compress := sha512Block
  output s := [s.a, s.b, s.c, s.d, s.e, s.f, s.g, s.h].flatMap fun word => bigEndian 8 word.toNat

def md5Hash (msg : List UInt8) : Option (List UInt8) := md5.digest msg

def sha1Hash (msg : List UInt8) : Option (List UInt8) := sha1.digest msg

def sha256Hash (msg : List UInt8) : Option (List UInt8) := sha256.digest msg

def sha512Hash (msg : List UInt8) : Option (List UInt8) := sha512.digest msg

/-- `kPad`: the key, or its digest, over a block of zeros. -/
def keyPad (key : List UInt8) : Option (List UInt8) :=
  if key.length > 64 then
    (sha256Hash key).bind fun keyHash => copyFrom (List.replicate 64 0) 0 keyHash 0 keyHash.length
  else copyFrom (List.replicate 64 0) 0 key 0 key.length

/-- The bytes of the vector that `lucis_hmacSha256` gives back. -/
def lucisHmacSha256 (key msg : List UInt8) : Option (List UInt8) := do
  let kPad ← keyPad key
  let innerBuf ← (OutBlock.fresh (sizeT (64 + msg.length))).putAll (kPad.map (· ^^^ 0x36))
  let innerBuf ← innerBuf.putAll msg
  let innerHash ← sha256Hash innerBuf.written
  let outerBuf ← (OutBlock.fresh (64 + 32)).putAll (kPad.map (· ^^^ 0x5c))
  let outerBuf ← outerBuf.putAll innerHash
  sha256Hash outerBuf.written

end Hashes

end Lucis.Crypto
