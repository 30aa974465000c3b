/-
The names that `ReadDir` lists.

In every reachable state a stored value and the value of a cached handle are a record
under its name: header, name, NUL and inline data, with the hash of the name in the
key. So the C string that `ReadDir` takes from a value leads back to the value's key
(`listed_names_resolve`).
-/
import Tablefs.Reachable
import Mathlib.Data.List.TakeWhile

set_option autoImplicit false

namespace Tablefs

open ByteString

/-- The name field of a value: the bytes that `namelen` counts. -/
def nameField (value : Bytes) : Bytes :=
  (value.drop TFS_INODE_HEADER_SIZE).take (getInodeHeader value).namelen.toNat

/-- A value holds its name whole, and `ReadDir` lists it under a name that leads back to
its key. -/
structure Listable (k : MetaKey) (value : Bytes) : Prop where
  long : TFS_INODE_HEADER_SIZE + (getInodeHeader value).namelen.toNat + 1 ≤ value.length
  noNul : 0 ∉ nameField value
  noDelim : PATH_DELIMITER ∉ nameField value
  nul : value[TFS_INODE_HEADER_SIZE + (getInodeHeader value).namelen.toNat]? = some 0
  hash : k.hash_id = murmur64 (nameField value) 123
  listed : buildMetaKey (nameOf value) k.inode_id = k

theorem InodeRecord.nameField_value (r : InodeRecord) : nameField r.value = r.name := by
  rw [nameField, r.getInodeHeader_value, value, List.drop_left' r.header.length_bytes,
    List.take_left' r.namelen_eq]

theorem RecordIs.listable {k : MetaKey} {v : Bytes} (h : RecordIs Named k v) : Listable k v := by
  obtain ⟨r, rfl, hname, hhash⟩ := h
  have hfield := r.nameField_value
  refine ⟨?_, hfield ▸ hname.noNul, hfield ▸ hname.noDelim, ?_, hfield ▸ hhash, ?_⟩
  · have hlen := r.length_value
    rw [r.getInodeHeader_value, ← r.namelen_eq, hlen, InodeRecord.dataStart]
    omega
  · -- the byte behind header and name
    have hlen : r.header.bytes.length = TFS_INODE_HEADER_SIZE := r.header.length_bytes
    rw [r.getInodeHeader_value, ← r.namelen_eq, InodeRecord.value,
      List.getElem?_append_right (by omega), hlen, Nat.add_sub_cancel_left,
      List.getElem?_append_right (Nat.le_refl _), Nat.sub_self]
    rfl
  · rw [r.nameOf_value hname.noNul, buildMetaKey, ← hhash]

/-- In every reachable state, what is stored under a 16-byte key and the value of every
live handle are listed under a name that can be looked up. -/
theorem World.listed_names_resolve {w : World} (h : w.Reachable) :
    (∀ key v, w.store.metadb.get key = some v → key.length = 16 →
      ∃ k, key = MetaKey.toSlice k ∧ Listable k v) ∧
    ∀ i, w.store.cache.Live i → Listable (w.store.keyOf i) (w.store.value i) := by
  constructor
  · intro key v hv hlen
    rcases h.records.keyed key v hv with rfl | ⟨k, hk, hr⟩
    · exact absurd hlen (by decide)
    · exact ⟨k, hk, hr.listable⟩
  · exact fun i hi => (h.records.all.live i hi).listable

/-- The entries that `ReadDir` goes through are stored under 16-byte keys of the
directory, and the name of each leads back to its key. -/
theorem World.dirEntries_resolve {w : World} (hr : w.store.Records) {dir : UInt64}
    {e : Bytes × Bytes} (he : e ∈ w.dirEntries dir) :
    w.store.dbGet (buildMetaKey (nameOf e.2) dir) = some e.2 := by
  obtain ⟨key, v⟩ := e
  have hdir := List.mem_takeWhile_imp he
  have hpre : 8 ≤ key.length ∧ leNat (key.take 8) = dir.toNat := of_decide_eq_true hdir
  have hget := SortedMap.mem_of_mem_seek ((List.takeWhile_sublist _).subset he)
  rcases hr.keyed key v hget with rfl | ⟨k, rfl, hrec⟩
  · exact absurd hpre.1 (by decide)
  · -- the key's first word is the directory
    have hino : k.inode_id = dir := UInt64.toNat_inj.mp (k.leNat_toSlice.symm.trans hpre.2)
    have hkey : buildMetaKey (nameOf v) dir = k := hino ▸ hrec.listable.listed
    rw [hkey]
    exact hget

/-- A file is made, written to and renamed. -/
def renamedRun : List Op :=
  [.makeNode [47, 97] 0 0, .openFile [47, 97] O_RDWR, .write 0 [1, 2, 3] 0, .release 0,
    .rename [47, 97] [47, 98, 99]]

theorem renamedRun_resolves :
    (∀ key v, ((mount Durable.empty plainConfig).run renamedRun).store.metadb.get key = some v →
      key.length = 16 → ∃ k, key = MetaKey.toSlice k ∧ Listable k v) ∧
    ∀ i, ((mount Durable.empty plainConfig).run renamedRun).store.cache.Live i →
      Listable (((mount Durable.empty plainConfig).run renamedRun).store.keyOf i)
        (((mount Durable.empty plainConfig).run renamedRun).store.value i) :=
  World.listed_names_resolve ((World.Reachable.mount empty_records plainConfig).run (by decide))

end Tablefs
