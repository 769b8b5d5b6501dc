import Mathlib.Algebra.Ring.Nat
import Mathlib.Data.List.Basic

/-!
The hash functions of collections/set.c and collections/map.c, on 64-bit words
held as naturals below 2^64, and the string handle both tables store. Two
handles are the same element when their bytes agree; the pointer only decides
which copy is released.
-/

namespace Lucis.Hashing

structure LucisString where
  ptr : Nat
  bytes : List UInt8
  deriving DecidableEq

def word : Nat := 2 ^ 64

def splitmix64 (x : Nat) : Nat :=
  let x := (x ^^^ (x >>> 30)) * 0xbf58476d1ce4e5b9 % word
  let x := (x ^^^ (x >>> 27)) * 0x94d049bb133111eb % word
  x ^^^ (x >>> 31)

/-- FNV-1a, the loop of `hash_str`, `hash_raw` and `hash_key_str`. -/
def fnv1a (bytes : List UInt8) : Nat :=
  bytes.foldl (fun h byte => (h ^^^ byte.toNat) * 1099511628211 % word) 14695981039346656037

/-- `hash_1`, `hash_2`, `hash_4`, `hash_8`: one word, zero extended. -/
def hashWord {width : Nat} (key : BitVec width) : Nat :=
  splitmix64 (key.toNat % word)

def hash16 (key : BitVec 128) : Nat :=
  let low := key.toNat % word
  let high := key.toNat / word
  splitmix64 (low ^^^ splitmix64 high)

def hash32 (key : BitVec 256) : Nat :=
  let limb (i : Nat) := key.toNat / word ^ i % word
  splitmix64 (limb 0) ^^^ splitmix64 (limb 1) ^^^ splitmix64 (limb 2) ^^^ splitmix64 (limb 3)

end Lucis.Hashing
