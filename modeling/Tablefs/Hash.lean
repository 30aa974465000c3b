/-
Keys: `murmur64`, `tfs_meta_key_t`, and the hash that picks the shard of the
inode cache a key lives in.

A record is stored under the inode number of its parent and the hash of its
name, both as little-endian words. The bytes determine the key
(`MetaKey.toSlice_inj`), so a statement about the store's byte keys and one
about `tfs_meta_key_t` are the same statement.
-/
import Tablefs.Lib.Bytes

set_option autoImplicit false

namespace Tablefs

open ByteString

/-! ## `murmur64` -/

/-- The multiplier `m` of `murmur64`. -/
def murmurMul : UInt64 := 0xc6a4a7935bd1e995

/-- The body of `murmur64`'s loop, on one 8-byte block. -/
def murmurBlock (h k : UInt64) : UInt64 :=
  let k := k * murmurMul
  let k := k ^^^ (k >>> 47)
  let k := k * murmurMul
  (h ^^^ k) * murmurMul

/-- The loop of `murmur64`: the hash after the whole blocks, and the bytes left. -/
def murmurBlocks (h : UInt64) : Bytes → UInt64 × Bytes
  | b0 :: b1 :: b2 :: b3 :: b4 :: b5 :: b6 :: b7 :: rest =>
      murmurBlocks (murmurBlock h (.ofNat (leNat [b0, b1, b2, b3, b4, b5, b6, b7]))) rest
  | tail => (h, tail)

/-- The fall-through cases of the tail: the byte at index `i` is shifted by
`8 * i`, the last byte first. -/
def murmurXorTail (h : UInt64) : ℕ → Bytes → UInt64
  | _, [] => h
  | i, b :: bs => murmurXorTail h (i + 1) bs ^^^ (b.toUInt64 <<< (8 * UInt64.ofNat i))

/-- `murmur64(key, len, seed)`. `len` is an `int`: strings are shorter than `2^31`. -/
def murmur64 (key : Bytes) (seed : UInt64) : UInt64 :=
  let h := seed ^^^ (UInt64.ofNat key.length * murmurMul)
  let (h, tail) := murmurBlocks h key
  let h := if tail = [] then h else murmurXorTail h 0 tail * murmurMul
  let h := h ^^^ (h >>> 47)
  let h := h * murmurMul
  h ^^^ (h >>> 47)

/-! ## `tfs_meta_key_t` -/

/-- `tfs_meta_key_t` -/
structure MetaKey where
  inode_id : UInt64
  hash_id : UInt64
  deriving DecidableEq, Repr, Inhabited

/-- `ROOT_INODE_ID` -/
def ROOT_INODE_ID : UInt64 := 0

/-- `BuildMetaKey(path, len, inode_id, key)` -/
def buildMetaKey (name : Bytes) (inode_id : UInt64) : MetaKey := ⟨inode_id, murmur64 name 123⟩

/-- The key of the root's own record, `BuildMetaKey(NULL, 0, ROOT_INODE_ID, key)`. -/
def rootKey : MetaKey := buildMetaKey [] ROOT_INODE_ID

/-- `tfs_meta_key_t::ToSlice` -/
def MetaKey.toSlice (k : MetaKey) : Bytes :=
  leBytes 8 k.inode_id.toNat ++ leBytes 8 k.hash_id.toNat

@[simp] theorem MetaKey.length_toSlice (k : MetaKey) : k.toSlice.length = 16 := by
  simp [MetaKey.toSlice]

/-- The first word of a key's bytes is its inode number. -/
theorem MetaKey.leNat_toSlice (k : MetaKey) : leNat (k.toSlice.take 8) = k.inode_id.toNat := by
  have hlen : (leBytes 8 k.inode_id.toNat).length = 8 := by simp
  rw [MetaKey.toSlice, List.take_left' hlen, leNat_leBytes _ _ k.inode_id.toNat_lt]

theorem MetaKey.toSlice_inj {k k' : MetaKey} (h : k.toSlice = k'.toSlice) : k = k' := by
  have hfit : ∀ x : UInt64, x.toNat < 256 ^ 8 := fun x => x.toNat_lt
  obtain ⟨hi, hh⟩ := List.append_inj h (by simp)
  have hi' : k.inode_id = k'.inode_id :=
    UInt64.toNat_inj.mp (leBytes_inj (hfit _) (hfit _) hi)
  have hh' : k.hash_id = k'.hash_id :=
    UInt64.toNat_inj.mp (leBytes_inj (hfit _) (hfit _) hh)
  obtain ⟨⟩ := k
  obtain ⟨⟩ := k'
  simp only at hi' hh'
  rw [hi', hh']

@[simp] theorem MetaKey.toSlice_eq_iff {k k' : MetaKey} : k.toSlice = k'.toSlice ↔ k = k' :=
  ⟨MetaKey.toSlice_inj, fun h => h ▸ rfl⟩

/-! ## The shard of a key -/

/-- The loop of `leveldb::Hash`; the 16 bytes of a key leave no tail. -/
def hashWords (h : UInt32) : Bytes → UInt32
  | b0 :: b1 :: b2 :: b3 :: rest =>
      let h := (h + .ofNat (leNat [b0, b1, b2, b3])) * 0xc6a4a793
      hashWords (h ^^^ (h >>> 16)) rest
  | _ => h

/-- `leveldb::Hash(data, n, seed)` -/
def leveldbHash (data : Bytes) (seed : UInt32) : UInt32 :=
  hashWords (seed ^^^ (UInt32.ofNat data.length * 0xc6a4a793)) data

/-- `ShardedLRUCache::Shard` of a key's hash. -/
def cacheShard (k : MetaKey) : UInt32 := leveldbHash k.toSlice 0 >>> 28

end Tablefs
