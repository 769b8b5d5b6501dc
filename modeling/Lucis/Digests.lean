import Mathlib.Data.List.Induction
import Lucis.Crypto

/-!
What the digests of builtins/crypto/crypto.c go through. The buffer is the padded
message of the standard, the loop visits its blocks one by one and reads nothing else,
and the keyed digest is the one of its definition over `sha256_hash`.
-/

namespace Lucis.Crypto

open Memory BlockPadding List Option

section Writes

variable (front : List UInt8)

theorem copyFrom_over (old bytes back : List UInt8) (size : old.length = bytes.length) :
    copyFrom (front ++ old ++ back) front.length bytes 0 bytes.length =
      some (front ++ bytes ++ back) := by
  have inside : 0 + bytes.length ≤ bytes.length ∧
      front.length + bytes.length ≤ (front ++ old ++ back).length := by
    simp only [length_append]
    omega
  rw [copyFrom, if_pos inside, drop_zero, take_length, append_assoc front old,
    take_left, ← append_assoc front old]
  congr 2
  exact drop_left' (by rw [length_append, size])

theorem store_over (back : List UInt8) (old byte : UInt8) :
    store (front ++ old :: back) front.length byte = some (front ++ byte :: back) := by
  have inside : front.length < (front ++ old :: back).length := by simp
  rw [store, if_pos inside]
  simp

theorem stores_over (f : Nat → UInt8) (n : Nat) (old : List UInt8) (room : n ≤ old.length) :
    (List.range n).foldlM (fun buf i => store buf (front.length + i) (f i)) (front ++ old) =
      some (front ++ (List.range n).map f ++ old.drop n) := by
  induction n with
  | zero => simp
  | succ n ih =>
    have next : old.drop n = old[n] :: old.drop (n + 1) := drop_eq_getElem_cons room
    have place : front.length + n = (front ++ (List.range n).map f).length := by simp
    rw [range_succ, foldlM_append, ih (Nat.le_of_succ_le room), next]
    simp only [bind_eq_bind, bind_some, foldlM_cons, foldlM_nil]
    rw [place, store_over, map_append]
    simp

variable (bits : UInt64)

theorem byte_of_shift {i : Nat} (small : i < 8) :
    (bits >>> UInt64.ofNat (56 - 8 * i)).toUInt8 = UInt8.ofNat (bits.toNat / 256 ^ (8 - 1 - i)) := by
  have amount : (UInt64.ofNat (56 - 8 * i)).toNat = 8 * (8 - 1 - i) := by
    rw [UInt64.toNat_ofNat']
    omega
  apply UInt8.toNat_inj.mp
  rw [UInt64.toNat_toUInt8, UInt64.toNat_shiftRight, amount,
    Nat.mod_eq_of_lt (by omega : 8 * (8 - 1 - i) < 64), Nat.shiftRight_eq_div_pow, Nat.pow_mul,
    UInt8.toNat_ofNat']

theorem putBitsBe_over :
    putBitsBe (front ++ List.replicate 8 0) front.length bits =
      some (front ++ bigEndian 8 bits.toNat) := by
  rw [putBitsBe, stores_over front _ 8 _ (by simp), bigEndian_eq_map]
  have bytes : (List.range 8).map (fun i => (bits >>> UInt64.ofNat (56 - 8 * i)).toUInt8) =
      (List.range 8).map fun i => UInt8.ofNat (bits.toNat / 256 ^ (8 - 1 - i)) :=
    map_congr_left fun i member => byte_of_shift bits (mem_range.1 member)
  simp [bytes]

theorem sha512StoreBe64_over (old back : List UInt8) (v : UInt64) :
    sha512StoreBe64 old.length (front ++ old ++ back) front.length v =
      some (front ++ bigEndian old.length v.toNat ++ back) := by
  induction old using List.reverseRecOn generalizing back v with
  | nil => simp [sha512StoreBe64, bigEndian, littleEndian]
  | append_singleton old last ih =>
    have place : front.length + old.length = (front ++ old).length := by simp
    have shaped : front ++ (old ++ [last]) ++ back = front ++ old ++ last :: back := by simp
    have high : (v >>> 8).toNat = v.toNat / 256 := by
      rw [UInt64.toNat_shiftRight]
      exact Nat.shiftRight_eq_div_pow _ 8
    have low : v.toUInt8 = UInt8.ofNat v.toNat := by
      apply UInt8.toNat_inj.mp
      rw [UInt64.toNat_toUInt8, UInt8.toNat_ofNat']
    rw [length_append, length_singleton, sha512StoreBe64, place, shaped, store_over,
      bind_some, ih, high, bigEndian_succ, low]
    simp

end Writes

section Windows

variable {α β : Type} {block : Nat}

/-- A read that sees the same in a buffer at `off` as in the block that begins there. -/
def Seen (block : Nat) (read : List UInt8 → Nat → Option α) : Prop :=
  ∀ buf off, off + block ≤ buf.length →
    ∃ v, read buf off = some v ∧ read ((buf.drop off).take block) 0 = some v

variable {p : Nat}

theorem seen_load (inside : p < block) : Seen block fun buf off => load buf (off + p) := by
  intro buf off room
  have here : off + p < buf.length := by omega
  have read := getElem?_eq_getElem here
  refine ⟨buf[off + p], read, ?_⟩
  simp only [load, zero_add, getElem?_take_of_lt inside, getElem?_drop, read]

theorem seen_some (v : α) : Seen block fun _ _ => some v :=
  fun _ _ _ => ⟨v, rfl, rfl⟩

variable {read : List UInt8 → Nat → Option α}

theorem seen_bind {next : α → List UInt8 → Nat → Option β} (first : Seen block read)
    (later : ∀ v, Seen block (next v)) :
    Seen block fun buf off => (read buf off).bind fun v => next v buf off := by
  intro buf off room
  rcases first buf off room with ⟨v, at_off, in_block⟩
  simp only [at_off, in_block, bind_some]
  exact later v buf off room

theorem seen_map (first : Seen block read) (f : α → β) :
    Seen block fun buf off => (read buf off).map f := by
  intro buf off room
  rcases first buf off room with ⟨v, at_off, in_block⟩
  exact ⟨f v, by simp only [at_off, map_some], by simp only [in_block, map_some]⟩

variable (l : List β)

theorem seen_foldlM {read : α → β → List UInt8 → Nat → Option α}
    (each : ∀ s, ∀ i ∈ l, Seen block (read s i)) (s : α) :
    Seen block fun buf off => l.foldlM (fun s i => read s i buf off) s := by
  induction l generalizing s with
  | nil => exact seen_some s
  | cons i rest ih =>
    exact seen_bind (each s i (.head _))
      (fun t => ih (fun s j member => each s j (.tail _ member)) t)

theorem seen_mapM {read : β → List UInt8 → Nat → Option α} (each : ∀ i ∈ l, Seen block (read i)) :
    Seen block fun buf off => l.mapM fun i => read i buf off := by
  induction l with
  | nil => exact seen_some []
  | cons i rest ih =>
    intro buf off room
    rcases each i (.head _) buf off room with ⟨v, at_off, in_block⟩
    rcases ih (fun j member => each j (.tail _ member)) buf off room with
      ⟨vs, at_off', in_block'⟩
    refine ⟨v :: vs, ?_, ?_⟩
    · simp [at_off, at_off']
    · simp [in_block, in_block']

theorem seen_be32 (inside : p + 4 ≤ block) : Seen block fun buf off => be32 buf (off + p) :=
  seen_bind (seen_load (by omega)) fun _ => seen_bind (seen_load (p := p + 1) (by omega)) fun _ =>
    seen_bind (seen_load (p := p + 2) (by omega)) fun _ =>
      seen_bind (seen_load (p := p + 3) (by omega)) fun _ => seen_some _

theorem seen_le32 (inside : p + 4 ≤ block) : Seen block fun buf off => le32 buf (off + p) :=
  seen_bind (seen_load (by omega)) fun _ => seen_bind (seen_load (p := p + 1) (by omega)) fun _ =>
    seen_bind (seen_load (p := p + 2) (by omega)) fun _ =>
      seen_bind (seen_load (p := p + 3) (by omega)) fun _ => seen_some _

theorem seen_be64 (inside : p + 8 ≤ block) :
    Seen block fun buf off => sha512Be64 buf (off + p) := by
  apply seen_foldlM
  intro v i member
  rw [mem_range] at member
  simp only [add_assoc]
  exact seen_map (seen_load (by omega)) _

variable (s : Md5State)

theorem md5Select_lt (i : Nat) : (md5Select s i).2 < 16 := by
  unfold md5Select
  split
  · assumption
  · split
    · exact Nat.mod_lt _ (by decide)
    · split <;> exact Nat.mod_lt _ (by decide)

theorem md5Block_seen : Seen 64 fun buf off => md5Block buf off s := by
  apply seen_map
  apply seen_foldlM
  intro t i _
  -- every round reads one of the sixteen words
  have word := md5Select_lt t i
  exact seen_map (seen_le32 (by omega)) _

theorem words_seen : Seen 64 fun buf off => (List.range 16).mapM fun i => be32 buf (off + i * 4) := by
  apply seen_mapM
  intro i member
  rw [mem_range] at member
  exact seen_be32 (by omega)

theorem sha512Block_seen (s : Sha2State UInt64) : Seen 128 fun buf off => sha512Block buf off s := by
  apply seen_map
  apply seen_mapM
  intro i member
  rw [mem_range] at member
  exact seen_be64 (by omega)

end Windows

section Padding

variable {State : Type}

def maxMessage : Nat := 2 ^ 61

structure Follows (d : Hash State) (scheme : Scheme) : Prop where
  block_eq : scheme.block = d.block
  tail_eq : scheme.field = d.tail
  rest_eq : d.rest + d.tail = d.block
  mark_eq : scheme.mark = 0x80
  encodes : ∀ front : List UInt8, ∀ len < maxMessage,
    d.putBits (front ++ List.replicate d.tail 0) front.length (UInt64.ofNat len * 8) =
      some (front ++ scheme.encode len)
  apart : ∀ m < maxMessage, ∀ n < maxMessage, scheme.encode m = scheme.encode n → m = n
  seen : ∀ s, Seen d.block fun buf off => d.compress buf off s

theorem padTo_least (block rest : Nat) (inside : rest < block) (n : Nat) :
    ∃ more, padTo block rest inside n = n + more ∧ (n + more) % block = rest ∧
      ∀ fewer < more, (n + fewer) % block ≠ rest := by
  fun_induction padTo block rest inside n with
  | case1 n done => exact ⟨0, rfl, done, fun fewer impossible => by omega⟩
  | case2 n missed ih =>
    rcases ih with ⟨more, reached, fills, least⟩
    refine ⟨more + 1, by rw [reached]; omega, by rw [← fills]; congr 1; omega, ?_⟩
    intro fewer below
    cases fewer with
    | zero => exact missed
    | succ fewer =>
      have shifted : n + (fewer + 1) = n + 1 + fewer := by omega
      rw [shifted]
      exact least fewer (by omega)

variable {d : Hash State} {scheme : Scheme} (follows : Follows d scheme)

include follows in
/-- The loop over `new_len` stops behind the least number of zeros. -/
theorem newLen_eq (len : Nat) : d.newLen len = len + 1 + scheme.zeros len := by
  have positive := Nat.zero_lt_of_lt d.inside
  have reached : ∀ more, (len + 1 + more) % d.block = d.rest ↔
      scheme.block ∣ len + 1 + more + scheme.field := by
    intro more
    have small := Nat.mod_lt (len + 1 + more) positive
    have sum := follows.rest_eq
    have inside := d.inside
    have tail_lt := scheme.field_lt
    rw [follows.block_eq, follows.tail_eq] at tail_lt
    rw [follows.block_eq, follows.tail_eq, Nat.dvd_iff_mod_eq_zero,
      Nat.add_mod _ d.tail, Nat.mod_eq_of_lt tail_lt]
    generalize (len + 1 + more) % d.block = filled at small ⊢
    rcases Nat.lt_or_ge (filled + d.tail) d.block with short | full
    · rw [Nat.mod_eq_of_lt short]
      omega
    · rw [Nat.mod_eq_sub_mod full, Nat.mod_eq_of_lt (by omega)]
      omega
  -- the loop stops at the first number of zeros that fills a block, which is the scheme's
  rcases padTo_least d.block d.rest d.inside (len + 1) with ⟨more, padded, fills, least⟩
  have enough := scheme.zeros_least ((reached more).1 fills)
  have filled := (reached (scheme.zeros len)).mpr
    ((scheme.fills_iff _ _).2 (Nat.mod_eq_of_lt (scheme.zeros_lt len)))
  have same : more = scheme.zeros len := by
    by_contra different
    exact least _ (by omega) filled
  rw [Hash.newLen, padded, same]

include follows in
theorem fillBuf_eq (msg : List UInt8) (short : msg.length < maxMessage) :
    d.fillBuf msg = some (scheme.pad msg) := by
  have room : List.replicate (d.newLen msg.length + d.tail) (0 : UInt8) =
      [] ++ List.replicate msg.length 0 ++
        List.replicate (scheme.zeros msg.length + d.tail + 1) 0 := by
    rw [nil_append, ← replicate_add, newLen_eq follows]
    congr 1
    omega
  have marked : store (msg ++ List.replicate (scheme.zeros msg.length + d.tail + 1) 0)
      msg.length 0x80 =
      some (msg ++ 0x80 :: List.replicate (scheme.zeros msg.length) 0 ++
        List.replicate d.tail 0) := by
    rw [replicate_succ, store_over, replicate_add]
    simp
  have place : d.newLen msg.length =
      (msg ++ 0x80 :: List.replicate (scheme.zeros msg.length) (0 : UInt8)).length := by
    rw [newLen_eq follows, length_append, length_cons, length_replicate]
    omega
  have copied := copyFrom_over [] (List.replicate msg.length 0) msg
    (List.replicate (scheme.zeros msg.length + d.tail + 1) 0) length_replicate
  rw [length_nil, nil_append msg] at copied
  rw [Hash.fillBuf, room, copied]
  simp only [bind_eq_bind, bind_some]
  rw [marked, bind_some, place, follows.encodes _ _ short, Scheme.pad, follows.mark_eq]

/-- The blocks go through the block function one by one, each alone in its own buffer. -/
def chain (d : Hash State) (blocks : List (List UInt8)) (s : State) : Option State :=
  blocks.foldlM (fun s block => d.compress block 0 s) s

/-- From the `i`-th block on: the loop is the chain of the `left` blocks that follow. -/
theorem blockLoop_chain (seen : ∀ s, Seen d.block fun buf off => d.compress buf off s)
    (buf : List UInt8) (left i : Nat) (whole : buf.length = (i + left) * d.block) (s : State) :
    ∃ t, d.blockLoop buf.length buf (i * d.block) s = some t ∧
      chain d ((List.range' i left).map fun j => (buf.drop (j * d.block)).take d.block) s =
        some t := by
  have positive := Nat.zero_lt_of_lt d.inside
  induction left generalizing i s with
  | zero =>
    rw [add_zero] at whole
    exact ⟨s, by rw [Hash.blockLoop, if_neg (by omega)], rfl⟩
  | succ left ih =>
    have next : buf.length = (i + 1 + left) * d.block := by rw [whole]; congr 1; omega
    have room : i * d.block + d.block ≤ buf.length := by
      rw [next, ← Nat.succ_mul]
      exact Nat.mul_le_mul_right _ (by omega)
    rcases seen s buf (i * d.block) room with ⟨u, at_off, in_block⟩
    dsimp only at at_off in_block
    rcases ih (i + 1) next u with ⟨t, looped, chained⟩
    rw [add_mul, one_mul] at looped
    refine ⟨t, ?_, ?_⟩
    · rw [Hash.blockLoop, if_pos (by omega), at_off, bind_some, looped]
    · rw [range'_succ, map_cons, chain, foldlM_cons, in_block]
      exact chained

/-- What is promised of a digest and a message: the buffer is the padded message, whole blocks
with the least number of zeros; the digest is the chain of its blocks, all of them there; and
no other message is padded in the same way. -/
structure Standard (d : Hash State) (scheme : Scheme) (msg : List UInt8) : Prop where
  filled : d.fillBuf msg = some (scheme.pad msg)
  whole : scheme.block ∣ (scheme.pad msg).length
  least : ∀ zeros, scheme.block ∣ msg.length + 1 + zeros + scheme.field →
    scheme.zeros msg.length ≤ zeros
  chained : ∃ s, chain d (scheme.blocks (scheme.pad msg)) d.init = some s ∧
    d.digest msg = some (d.output s)
  injective : ∀ other : List UInt8, other.length < maxMessage →
    scheme.pad other = scheme.pad msg → other = msg

include follows in
theorem standard (msg : List UInt8) (short : msg.length < maxMessage) : Standard d scheme msg where
  filled := fillBuf_eq follows msg short
  whole := scheme.pad_whole msg
  least _ fills := scheme.zeros_least fills
  chained := by
    have limit : d.newLen msg.length + d.tail = (scheme.pad msg).length := by
      rw [scheme.pad_length, newLen_eq follows, follows.tail_eq]
    have count := Nat.div_mul_cancel (scheme.pad_whole msg)
    have blocks := blockLoop_chain follows.seen (scheme.pad msg)
      ((scheme.pad msg).length / scheme.block) 0
      (by rw [zero_add, ← follows.block_eq]; exact count.symm) d.init
    rcases blocks with ⟨t, looped, chained⟩
    rw [zero_mul] at looped
    refine ⟨t, ?_, ?_⟩
    · rw [Scheme.blocks, range_eq_range', follows.block_eq]
      rwa [follows.block_eq] at chained
    · simp only [Hash.digest, fillBuf_eq follows msg short, limit, looped, bind_eq_bind, bind_some]
  injective _ short' same := scheme.pad_injective follows.apart short' short same

end Padding

section Members

def md5Scheme : Scheme where
  block := 64
  field := 8
  mark := 0x80
  encode n := littleEndian 8 (8 * n)
  encode_length n := littleEndian_length 8 (8 * n)
  field_lt := by decide

def sha1Scheme : Scheme where
  block := 64
  field := 8
  mark := 0x80
  encode n := bigEndian 8 (8 * n)
  encode_length n := bigEndian_length 8 (8 * n)
  field_lt := by decide

def sha256Scheme : Scheme := sha1Scheme

def sha512Scheme : Scheme where
  block := 128
  field := 16
  mark := 0x80
  encode n := bigEndian 16 (8 * n)
  encode_length n := bigEndian_length 16 (8 * n)
  field_lt := by decide

variable {len : Nat}

theorem bits_toNat (short : len < maxMessage) :
    (UInt64.ofNat len * 8).toNat = 8 * len := by
  rw [maxMessage] at short
  have eight : (8 : UInt64).toNat = 8 := rfl
  rw [UInt64.toNat_mul, UInt64.toNat_ofNat', eight]
  omega

theorem bits_lt (short : len < maxMessage) : 8 * len < 256 ^ 8 := by
  rw [maxMessage] at short
  omega

theorem md5_follows : Follows md5 md5Scheme where
  block_eq := rfl
  tail_eq := rfl
  rest_eq := rfl
  mark_eq := rfl
  encodes front len short := by
    have copied := copyFrom_over front (List.replicate 8 0)
      (littleEndian 8 (UInt64.ofNat len * 8).toNat) []
      (by rw [length_replicate, littleEndian_length])
    rw [append_nil, append_nil, littleEndian_length, bits_toNat short] at copied
    simp only [md5, bits_toNat short]
    exact copied
  apart m m_short n n_short same := by
    have equal := littleEndian_injective (bits_lt m_short) (bits_lt n_short) same
    omega
  seen := md5Block_seen

theorem putBitsBe_encodes (front : List UInt8) (len : Nat) (short : len < maxMessage) :
    putBitsBe (front ++ List.replicate 8 0) front.length (UInt64.ofNat len * 8) =
      some (front ++ sha1Scheme.encode len) := by
  rw [putBitsBe_over, bits_toNat short]
  rfl

theorem sha1Scheme_apart (m : Nat) (m_short : m < maxMessage) (n : Nat) (n_short : n < maxMessage)
    (same : sha1Scheme.encode m = sha1Scheme.encode n) : m = n := by
  have equal := bigEndian_injective (bits_lt m_short) (bits_lt n_short) same
  omega

theorem sha1_follows : Follows sha1 sha1Scheme where
  block_eq := rfl
  tail_eq := rfl
  rest_eq := rfl
  mark_eq := rfl
  encodes := putBitsBe_encodes
  apart := sha1Scheme_apart
  seen := fun _ => seen_map words_seen _

theorem sha256_follows : Follows sha256 sha256Scheme where
  block_eq := rfl
  tail_eq := rfl
  rest_eq := rfl
  mark_eq := rfl
  encodes := putBitsBe_encodes
  apart := sha1Scheme_apart
  seen := fun _ => seen_map words_seen _

theorem sha512_follows : Follows sha512 sha512Scheme where
  block_eq := rfl
  tail_eq := rfl
  rest_eq := rfl
  mark_eq := rfl
  encodes front len short := by
    have stored := sha512StoreBe64_over (front ++ List.replicate 8 0) (List.replicate 8 0) []
      (UInt64.ofNat len * 8)
    have upper := bigEndian_wider 8 8 (8 * len) (bits_lt short)
    rw [length_replicate, bits_toNat short, append_nil, append_nil,
      append_assoc, ← replicate_add, append_assoc, ← upper, length_append,
      length_replicate] at stored
    exact stored
  apart m m_short n n_short same := by
    have wide : ∀ {len : Nat}, len < maxMessage → 8 * len < 256 ^ 16 := fun short =>
      lt_of_lt_of_le (bits_lt short) (by decide)
    have equal := bigEndian_injective (wide m_short) (wide n_short) same
    omega
  seen := sha512Block_seen

end Members

section Keyed

def hmacKey (block : Nat) (hash : List UInt8 → Option (List UInt8)) (key : List UInt8) :
    Option (List UInt8) :=
  (if key.length > block then hash key else some key).map fun key =>
    key ++ List.replicate (block - key.length) 0

def hmac (block : Nat) (hash : List UInt8 → Option (List UInt8)) (key msg : List UInt8) :
    Option (List UInt8) := do
  let key ← hmacKey block hash key
  let inner ← hash (key.map (· ^^^ 0x36) ++ msg)
  hash (key.map (· ^^^ 0x5c) ++ inner)

theorem sha256Hash_length {msg hash : List UInt8} (hashed : sha256Hash msg = some hash) :
    hash.length = 32 := by
  simp only [sha256Hash, Hash.digest, bind_eq_bind, bind_eq_some_iff, Option.some.injEq] at hashed
  rcases hashed with ⟨_, _, _, _, rfl⟩
  simp [sha256, storeBe32, bigEndian_length]

variable (key : List UInt8)

theorem key_padded (short : key.length ≤ 64) :
    copyFrom (List.replicate 64 0) 0 key 0 key.length =
      some (key ++ List.replicate (64 - key.length) 0) := by
  have room : List.replicate 64 (0 : UInt8) =
      [] ++ List.replicate key.length 0 ++ List.replicate (64 - key.length) 0 := by
    rw [nil_append, ← replicate_add]
    congr 1
    omega
  rw [room]
  exact copyFrom_over [] (List.replicate key.length 0) key _ length_replicate

theorem filled_twice (front back : List UInt8) :
    ∃ first last, (OutBlock.fresh (front.length + back.length)).putAll front = some first ∧
      first.putAll back = some last ∧ last.written = front ++ back := by
  rcases fresh_fits (front ++ back) (front.length + back.length) (by simp) with
    ⟨last, filled, _, written⟩
  rw [putAll_append, bind_eq_some_iff] at filled
  rcases filled with ⟨first, begun, ended⟩
  exact ⟨first, last, begun, ended, written⟩

theorem keyPad_eq : keyPad key = hmacKey 64 sha256Hash key := by
  unfold keyPad hmacKey
  split
  · cases hashed : sha256Hash key with
    | none => rfl
    | some keyHash =>
      have size := sha256Hash_length hashed
      exact key_padded keyHash (by omega)
  · exact key_padded key (by omega)

theorem hmacKey_length {key kPad : List UInt8} (padded : hmacKey 64 sha256Hash key = some kPad) :
    kPad.length = 64 := by
  rcases map_eq_some_iff.1 padded with ⟨used, chosen, rfl⟩
  have short : used.length ≤ 64 := by
    split at chosen
    · have size := sha256Hash_length chosen
      omega
    · cases chosen
      omega
  rw [length_append, length_replicate]
  omega

theorem hmac_eq (key msg : Bytes) :
    lucisHmacSha256 key.data msg.data = hmac 64 sha256Hash key.data msg.data := by
  have inner_size : sizeT (64 + msg.data.length) = 64 + msg.data.length :=
    sizeT_of_lt (by have addressable := msg.addressable; omega)
  rw [lucisHmacSha256, hmac, keyPad_eq]
  cases padded : hmacKey 64 sha256Hash key.data with
  | none => rfl
  | some kPad =>
    have block := hmacKey_length padded
    rcases filled_twice (kPad.map (· ^^^ 0x36)) msg.data with
      ⟨ipad, innerBuf, begun, ended, written⟩
    rw [length_map, block] at begun
    simp only [bind_eq_bind, bind_some, inner_size, begun, ended, written]
    cases hashed : sha256Hash (kPad.map (· ^^^ 0x36) ++ msg.data) with
    | none => rfl
    | some innerHash =>
      rcases filled_twice (kPad.map (· ^^^ 0x5c)) innerHash with
        ⟨opad, outerBuf, begun', ended', written'⟩
      rw [length_map, block, sha256Hash_length hashed] at begun'
      simp only [bind_some, begun', ended', written']

end Keyed

/-- All four digests go through the padded message of the standard, for every message whose
length in bits fits, and the keyed digest is the one of its definition. -/
theorem digests_exact :
    (∀ msg : List UInt8, msg.length < maxMessage →
      Standard md5 md5Scheme msg ∧ Standard sha1 sha1Scheme msg ∧
      Standard sha256 sha256Scheme msg ∧ Standard sha512 sha512Scheme msg) ∧
    ∀ key msg : Bytes, lucisHmacSha256 key.data msg.data = hmac 64 sha256Hash key.data msg.data := by
  constructor
  · intro msg short
    exact ⟨standard md5_follows msg short, standard sha1_follows msg short,
      standard sha256_follows msg short, standard sha512_follows msg short⟩
  · exact hmac_eq

/-- One byte more than fits in front of the length takes another block. -/
theorem digests_exact_boundary :
    Standard sha256 sha256Scheme (List.replicate 56 0x61) :=
  (digests_exact.1 (List.replicate 56 0x61) (by decide)).2.2.1

end Lucis.Crypto
