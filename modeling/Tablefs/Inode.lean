/-
Inode records: `tfs_inode.h` and the functions of `tablefs.cpp` that read and
edit the `std::string` a record is kept in.

A record is a packed byte string: a 256-byte header (`struct stat`, padding,
`has_blob`, `namelen`), the name, one NUL, and the inline data. The source
reads the header by `reinterpret_cast` and edits the string in place, so the
functions below work on bytes. `InodeRecord` is the well-formed record, its
name length tied to its header; `InodeRecord.value` are its bytes, and the
lemmas of the last section say what each edit does to a record as a whole.

The layout is that of a 64-bit Linux: `struct stat` has 144 bytes.
-/
import Tablefs.Lib.Bytes
import Mathlib.Data.Vector.Basic

set_option autoImplicit false

namespace Tablefs

open ByteString

/-! ## `struct stat` and `tfs_inode_header` -/

/-- `tfs_stat_t`, field for field, with the padding and reserved words a copy
of the structure carries along. -/
structure Stat where
  st_dev : UInt64
  st_ino : UInt64
  st_nlink : UInt64
  st_mode : UInt32
  st_uid : UInt32
  st_gid : UInt32
  pad0 : UInt32
  st_rdev : UInt64
  st_size : UInt64
  st_blksize : UInt64
  st_blocks : UInt64
  st_atim_sec : UInt64
  st_atim_nsec : UInt64
  st_mtim_sec : UInt64
  st_mtim_nsec : UInt64
  st_ctim_sec : UInt64
  st_ctim_nsec : UInt64
  reserved : BitVec 192
  deriving DecidableEq, Repr, Inhabited

/-- `tfs_inode_header` -/
structure InodeHeader where
  fstat : Stat
  padding : BitVec (8 * 104)
  has_blob : UInt32
  namelen : UInt32
  deriving DecidableEq, Repr, Inhabited

/-- `TFS_INODE_HEADER_SIZE` -/
def TFS_INODE_HEADER_SIZE : ℕ := 256

/-- `TFS_INODE_ATTR_SIZE` -/
def TFS_INODE_ATTR_SIZE : ℕ := 144

/-- The widths of the fields of `struct stat`. -/
def Stat.widths : List ℕ := [8, 8, 8, 4, 4, 4, 4, 8, 8, 8, 8, 8, 8, 8, 8, 8, 8, 24]

/-- The fields of `struct stat` as numbers. -/
def Stat.fields (s : Stat) : List ℕ :=
  [s.st_dev.toNat, s.st_ino.toNat, s.st_nlink.toNat, s.st_mode.toNat, s.st_uid.toNat,
    s.st_gid.toNat, s.pad0.toNat, s.st_rdev.toNat, s.st_size.toNat, s.st_blksize.toNat,
    s.st_blocks.toNat, s.st_atim_sec.toNat, s.st_atim_nsec.toNat, s.st_mtim_sec.toNat,
    s.st_mtim_nsec.toNat, s.st_ctim_sec.toNat, s.st_ctim_nsec.toNat, s.reserved.toNat]

/-- The structure with the given fields. -/
def Stat.ofFields (f : List ℕ) : Stat where
  st_dev := .ofNat (f.getD 0 0)
  st_ino := .ofNat (f.getD 1 0)
  st_nlink := .ofNat (f.getD 2 0)
  st_mode := .ofNat (f.getD 3 0)
  st_uid := .ofNat (f.getD 4 0)
  st_gid := .ofNat (f.getD 5 0)
  pad0 := .ofNat (f.getD 6 0)
  st_rdev := .ofNat (f.getD 7 0)
  st_size := .ofNat (f.getD 8 0)
  st_blksize := .ofNat (f.getD 9 0)
  st_blocks := .ofNat (f.getD 10 0)
  st_atim_sec := .ofNat (f.getD 11 0)
  st_atim_nsec := .ofNat (f.getD 12 0)
  st_mtim_sec := .ofNat (f.getD 13 0)
  st_mtim_nsec := .ofNat (f.getD 14 0)
  st_ctim_sec := .ofNat (f.getD 15 0)
  st_ctim_nsec := .ofNat (f.getD 16 0)
  reserved := .ofNat 192 (f.getD 17 0)

/-- The 144 bytes of a `struct stat`. -/
def Stat.bytes (s : Stat) : Bytes := packFields Stat.widths s.fields

/-- What `reinterpret_cast<const tfs_stat_t*>` reads at the start of a value. -/
def Stat.ofBytes (v : Bytes) : Stat := Stat.ofFields (unpackFields Stat.widths v)

/-- The widths of the header's own fields, after the `struct stat`. -/
def InodeHeader.widths : List ℕ := [104, 4, 4]

/-- The 256 bytes of a `tfs_inode_header`. -/
def InodeHeader.bytes (h : InodeHeader) : Bytes :=
  h.fstat.bytes ++
    packFields InodeHeader.widths [h.padding.toNat, h.has_blob.toNat, h.namelen.toNat]

/-- What `reinterpret_cast<const tfs_inode_header*>` reads at the start of a value. -/
def InodeHeader.ofBytes (v : Bytes) : InodeHeader :=
  let f := unpackFields InodeHeader.widths (v.drop TFS_INODE_ATTR_SIZE)
  { fstat := Stat.ofBytes v
    padding := .ofNat (8 * 104) (f.getD 0 0)
    has_blob := .ofNat (f.getD 1 0)
    namelen := .ofNat (f.getD 2 0) }

/-! ## Round trips of the header -/

theorem bitVec_lt_bytes (n : ℕ) (x : BitVec (8 * n)) : x.toNat < 256 ^ n := by
  have := x.isLt
  rwa [pow_mul] at this

theorem Stat.fields_fit (s : Stat) :
    List.Forall₂ (fun w x => x < 256 ^ w) Stat.widths s.fields := by
  have h64 : ∀ x : UInt64, x.toNat < 256 ^ 8 := fun x => x.toNat_lt
  have h32 : ∀ x : UInt32, x.toNat < 256 ^ 4 := fun x => x.toNat_lt
  have hbv : ∀ x : BitVec 192, x.toNat < 256 ^ 24 := bitVec_lt_bytes 24
  simp only [Stat.widths, Stat.fields, List.forall₂_cons, List.forall₂_nil_left_iff, h64, h32,
    hbv, and_self]

@[simp] theorem Stat.length_bytes (s : Stat) : s.bytes.length = TFS_INODE_ATTR_SIZE :=
  length_packFields Stat.widths s.fields rfl

@[simp] theorem Stat.ofFields_fields (s : Stat) : Stat.ofFields s.fields = s := by
  obtain ⟨⟩ := s
  simp [Stat.ofFields, Stat.fields]

theorem Stat.ofBytes_bytes (s : Stat) (rest : Bytes) : Stat.ofBytes (s.bytes ++ rest) = s := by
  rw [Stat.ofBytes, Stat.bytes, unpack_pack _ _ _ s.fields_fit, Stat.ofFields_fields]

@[simp] theorem InodeHeader.length_bytes (h : InodeHeader) :
    h.bytes.length = TFS_INODE_HEADER_SIZE := by
  rw [InodeHeader.bytes, List.length_append, Stat.length_bytes,
    length_packFields InodeHeader.widths
      [h.padding.toNat, h.has_blob.toNat, h.namelen.toNat] rfl]
  rfl

/-- The header read back from a value that starts with its bytes. -/
theorem InodeHeader.ofBytes_bytes (h : InodeHeader) (rest : Bytes) :
    InodeHeader.ofBytes (h.bytes ++ rest) = h := by
  have hfit : List.Forall₂ (fun w x => x < 256 ^ w) InodeHeader.widths
      [h.padding.toNat, h.has_blob.toNat, h.namelen.toNat] := by
    have hp : h.padding.toNat < 256 ^ 104 := bitVec_lt_bytes 104 h.padding
    have hb : h.has_blob.toNat < 256 ^ 4 := h.has_blob.toNat_lt
    have hn : h.namelen.toNat < 256 ^ 4 := h.namelen.toNat_lt
    simp only [InodeHeader.widths, List.forall₂_cons, List.forall₂_nil_left_iff, hp, hb, hn,
      and_self]
  rw [InodeHeader.ofBytes, InodeHeader.bytes, List.append_assoc,
    List.drop_left' (Stat.length_bytes _), unpack_pack _ _ _ hfit, Stat.ofBytes_bytes]
  obtain ⟨⟩ := h
  simp

theorem Stat.fields_ofFields {f : List ℕ}
    (h : List.Forall₂ (fun w x => x < 256 ^ w) Stat.widths f) : (Stat.ofFields f).fields = f := by
  simp only [Stat.widths, List.forall₂_cons_left_iff, List.forall₂_nil_left_iff] at h
  obtain ⟨_, _, h0, ⟨_, _, h1, ⟨_, _, h2, ⟨_, _, h3, ⟨_, _, h4, ⟨_, _, h5, ⟨_, _, h6,
    ⟨_, _, h7, ⟨_, _, h8, ⟨_, _, h9, ⟨_, _, h10, ⟨_, _, h11, ⟨_, _, h12, ⟨_, _, h13,
    ⟨_, _, h14, ⟨_, _, h15, ⟨_, _, h16, ⟨_, _, h17, rfl, rfl⟩, rfl⟩, rfl⟩, rfl⟩, rfl⟩, rfl⟩,
    rfl⟩, rfl⟩, rfl⟩, rfl⟩, rfl⟩, rfl⟩, rfl⟩, rfl⟩, rfl⟩, rfl⟩, rfl⟩, rfl⟩ := h
  have h64 : ∀ {x : ℕ}, x < 256 ^ 8 → (UInt64.ofNat x).toNat = x := by
    intro x hx
    rw [UInt64.toNat_ofNat']; omega
  have h32 : ∀ {x : ℕ}, x < 256 ^ 4 → (UInt32.ofNat x).toNat = x := by
    intro x hx
    rw [UInt32.toNat_ofNat']; omega
  have hbv : ∀ {x : ℕ}, x < 256 ^ 24 → (BitVec.ofNat 192 x).toNat = x := by
    intro x hx
    rw [BitVec.toNat_ofNat]; omega
  simp only [Stat.ofFields, Stat.fields, List.getD_cons_zero, List.getD_cons_succ, h64 h0, h64 h1,
    h64 h2, h32 h3, h32 h4, h32 h5, h32 h6, h64 h7, h64 h8, h64 h9, h64 h10, h64 h11, h64 h12,
    h64 h13, h64 h14, h64 h15, h64 h16, hbv h17]

theorem Stat.bytes_ofBytes {v : Bytes} (h : TFS_INODE_ATTR_SIZE ≤ v.length) :
    (Stat.ofBytes v).bytes = v.take TFS_INODE_ATTR_SIZE := by
  rw [Stat.bytes, Stat.ofBytes, Stat.fields_ofFields (unpack_fit _ _)]
  exact pack_unpack Stat.widths v h

/-- The header written back gives the bytes it was read from. -/
theorem InodeHeader.bytes_ofBytes {v : Bytes} (h : TFS_INODE_HEADER_SIZE ≤ v.length) :
    (InodeHeader.ofBytes v).bytes = v.take TFS_INODE_HEADER_SIZE := by
  have hrest : InodeHeader.widths.sum ≤ (v.drop TFS_INODE_ATTR_SIZE).length := by
    rw [List.length_drop]
    exact Nat.le_sub_of_add_le' h
  have hattr : TFS_INODE_ATTR_SIZE ≤ v.length := le_trans (by decide) h
  have hfit := unpack_fit InodeHeader.widths (v.drop TFS_INODE_ATTR_SIZE)
  have hpack := pack_unpack InodeHeader.widths _ hrest
  rw [InodeHeader.bytes, InodeHeader.ofBytes]
  dsimp only
  rw [Stat.bytes_ofBytes hattr]
  generalize unpackFields InodeHeader.widths (v.drop TFS_INODE_ATTR_SIZE) = f at hfit hpack
  simp only [InodeHeader.widths, List.forall₂_cons_left_iff, List.forall₂_nil_left_iff] at hfit
  obtain ⟨p, _, hp, ⟨b, _, hb, ⟨n, _, hn, rfl, rfl⟩, rfl⟩, rfl⟩ := hfit
  simp only [List.getD_cons_zero, List.getD_cons_succ]
  rw [show (BitVec.ofNat (8 * 104) p).toNat = p by rw [BitVec.toNat_ofNat]; omega,
    show (UInt32.ofNat b).toNat = b by rw [UInt32.toNat_ofNat']; omega,
    show (UInt32.ofNat n).toNat = n by rw [UInt32.toNat_ofNat']; omega, hpack, ← List.take_add]
  rfl

/-! ## Reading and editing a value

The functions of `tablefs.cpp`, lines 61 to 120. Offsets and sizes are
`size_t`, so the sums that locate the inline data are taken modulo `2^64`. -/

/-- A `size_t`. -/
def sizeT (x : ℤ) : ℕ := (x % 2 ^ 64).toNat

/-- `GetInodeHeader` -/
def getInodeHeader (value : Bytes) : InodeHeader := InodeHeader.ofBytes value

/-- `GetAttribute` -/
def getAttribute (value : Bytes) : Stat := Stat.ofBytes value

/-- The offset of byte `offset` of the inline data in the value. -/
def realOffset (value : Bytes) (offset : ℕ) : ℕ :=
  (TFS_INODE_HEADER_SIZE + (getInodeHeader value).namelen.toNat + 1 + offset) % 2 ^ 64

/-- `GetInlineData`: the count it returns and the bytes it copies. -/
def getInlineData (value : Bytes) (offset size : ℕ) : ℕ × Bytes :=
  let realoffset := realOffset value offset
  if realoffset < value.length then
    let size := if value.length < (realoffset + size) % 2 ^ 64 then value.length - realoffset
      else size
    (size, slice value realoffset size)
  else (0, [])

/-- `UpdateIhandleValue` -/
def updateIhandleValue (value : Bytes) (buf : Bytes) (offset : ℕ) : Bytes :=
  let value := if value.length < offset then resize value offset else value
  replace value offset buf.length buf

/-- `UpdateInodeHeader` -/
def updateInodeHeader (value : Bytes) (new_header : InodeHeader) : Bytes :=
  updateIhandleValue value new_header.bytes 0

/-- `UpdateAttribute` -/
def updateAttribute (value : Bytes) (new_fstat : Stat) : Bytes :=
  updateIhandleValue value new_fstat.bytes 0

/-- `UpdateInlineData` -/
def updateInlineData (value : Bytes) (buf : Bytes) (offset : ℕ) : Bytes :=
  updateIhandleValue value buf (realOffset value offset)

/-- `TruncateInlineData` -/
def truncateInlineData (value : Bytes) (new_size : ℕ) : Bytes :=
  resize value (realOffset value new_size)

/-- `DropInlineData` -/
def dropInlineData (value : Bytes) : Bytes := resize value (realOffset value 0)

/-- `InitInodeValue(old_value, filename)`: the slice's bytes go in together with
the byte after it, which is the NUL that ends the path. -/
def renameInodeValue (old_value : Bytes) (filename : Bytes) : Bytes :=
  let header := getInodeHeader old_value
  let new_value := replace old_value TFS_INODE_HEADER_SIZE (header.namelen.toNat + 1)
    (filename ++ [0])
  updateInodeHeader new_value { header with namelen := .ofNat filename.length }

/-- The C string at the name's place in a value, as `ReadDir` hands it to the
filler. -/
def nameOf (value : Bytes) : Bytes :=
  (value.drop TFS_INODE_HEADER_SIZE).takeWhile (· ≠ 0)

/-! ## Well-formed records -/

/-- A record: its name has the length its header says. -/
structure InodeRecord where
  header : InodeHeader
  name : Bytes
  inline : Bytes
  namelen_eq : name.length = header.namelen.toNat

namespace InodeRecord

/-- The bytes of a record. -/
def value (r : InodeRecord) : Bytes := r.header.bytes ++ (r.name ++ 0 :: r.inline)

theorem ext_fields {r s : InodeRecord} (hh : r.header = s.header) (hn : r.name = s.name)
    (hi : r.inline = s.inline) : r = s := by
  obtain ⟨⟩ := r
  obtain ⟨⟩ := s
  simp only at hh hn hi
  subst hh hn hi; rfl

/-- The record with another `struct stat`. -/
def setStat (r : InodeRecord) (s : Stat) : InodeRecord :=
  { r with header := { r.header with fstat := s } }

/-- The record with another `struct stat` and blob flag. -/
def setBlob (r : InodeRecord) (s : Stat) (has_blob : UInt32) : InodeRecord :=
  { r with header := { r.header with fstat := s, has_blob := has_blob } }

/-- The record with other inline data. -/
def setInline (r : InodeRecord) (data : Bytes) : InodeRecord := { r with inline := data }

/-- The record under another name. -/
def setName (r : InodeRecord) (n : Bytes) (hn : n.length < 2 ^ 32) : InodeRecord where
  header := { r.header with namelen := .ofNat n.length }
  name := n
  inline := r.inline
  namelen_eq := by
    rw [UInt32.toNat_ofNat']; omega

@[simp] theorem getInodeHeader_value (r : InodeRecord) : getInodeHeader r.value = r.header :=
  InodeHeader.ofBytes_bytes r.header _

@[simp] theorem getAttribute_value (r : InodeRecord) : getAttribute r.value = r.header.fstat := by
  rw [getAttribute, value, InodeHeader.bytes, List.append_assoc, Stat.ofBytes_bytes]

/-- The bytes of a record determine it. -/
theorem value_inj {r s : InodeRecord} (h : r.value = s.value) : r = s := by
  have hh : r.header = s.header := by rw [← r.getInodeHeader_value, h, s.getInodeHeader_value]
  have hlen : r.name.length = s.name.length := by rw [r.namelen_eq, s.namelen_eq, hh]
  rw [value, value, hh] at h
  obtain ⟨hn, hi⟩ := List.append_inj (List.append_cancel_left h) hlen
  exact ext_fields hh hn (List.cons.inj hi).2

theorem namelen_lt (r : InodeRecord) : r.name.length < 2 ^ 32 := by
  rw [r.namelen_eq]; exact r.header.namelen.toNat_lt

/-- Where a record's inline data starts. -/
def dataStart (r : InodeRecord) : ℕ := TFS_INODE_HEADER_SIZE + r.name.length + 1

theorem length_value (r : InodeRecord) : r.value.length = r.dataStart + r.inline.length := by
  simp only [value, dataStart, List.length_append, InodeHeader.length_bytes, List.length_cons]
  omega

/-- The part of a record in front of its inline data. -/
def front (r : InodeRecord) : Bytes := r.header.bytes ++ (r.name ++ [0])

theorem value_eq_front (r : InodeRecord) : r.value = r.front ++ r.inline := by
  simp only [value, front, List.append_assoc, List.singleton_append]

theorem length_front (r : InodeRecord) : r.front.length = r.dataStart := by
  simp only [front, dataStart, List.length_append, InodeHeader.length_bytes, List.length_singleton]
  omega

theorem realOffset_value (r : InodeRecord) (offset : ℕ) (h : r.dataStart + offset < 2 ^ 64) :
    realOffset r.value offset = r.front.length + offset := by
  rw [realOffset, getInodeHeader_value, ← r.namelen_eq, length_front]
  exact Nat.mod_eq_of_lt h

theorem dataStart_lt (r : InodeRecord) : r.dataStart < 2 ^ 33 := by
  have := r.namelen_lt
  simp only [dataStart, TFS_INODE_HEADER_SIZE]; omega

/-- `UpdateAttribute` puts in the given `struct stat` and touches nothing else. -/
theorem updateAttribute_value (r : InodeRecord) (s : Stat) :
    updateAttribute r.value s = (r.setStat s).value := by
  rw [updateAttribute, updateIhandleValue, if_neg (Nat.not_lt_zero _), value, InodeHeader.bytes,
    List.append_assoc, replace_front _ _ _ _ (by simp)]
  simp only [value, setStat, InodeHeader.bytes, List.append_assoc]

/-- `UpdateInodeHeader` with a header that keeps the name length. -/
theorem updateInodeHeader_value (r : InodeRecord) (s : Stat) (has_blob : UInt32) :
    updateInodeHeader r.value { r.header with fstat := s, has_blob := has_blob }
      = (r.setBlob s has_blob).value := by
  rw [updateInodeHeader, updateIhandleValue, if_neg (Nat.not_lt_zero _), value,
    replace_front _ _ _ _ (by simp)]
  rfl

/-- `UpdateInlineData` is the byte array's own write, on the inline data. -/
theorem updateInlineData_value (r : InodeRecord) (buf : Bytes) (offset : ℕ)
    (h : r.dataStart + offset < 2 ^ 64) :
    updateInlineData r.value buf offset = (r.setInline (overlay r.inline offset buf)).value := by
  have hfront : (r.setInline (overlay r.inline offset buf)).value
      = r.front ++ overlay r.inline offset buf := value_eq_front _
  rw [updateInlineData, r.realOffset_value offset h, updateIhandleValue, hfront,
    overlay_eq_replace, r.value_eq_front]
  by_cases hlt : r.inline.length < offset
  · rw [if_pos (by rw [List.length_append]; omega), resize_append, replace_append,
      Nat.max_eq_left (by omega)]
  · rw [if_neg (by rw [List.length_append]; omega), replace_append,
      Nat.max_eq_right (by omega), resize_length]

/-- `TruncateInlineData` cuts or zero-extends the inline data. -/
theorem truncateInlineData_value (r : InodeRecord) (n : ℕ) (h : r.dataStart + n < 2 ^ 64) :
    truncateInlineData r.value n = (r.setInline (resize r.inline n)).value := by
  have hfront : (r.setInline (resize r.inline n)).value = r.front ++ resize r.inline n :=
    value_eq_front _
  rw [truncateInlineData, r.realOffset_value n h, hfront, r.value_eq_front, resize_append]

/-- `DropInlineData` empties the inline data. -/
theorem dropInlineData_value (r : InodeRecord) :
    dropInlineData r.value = (r.setInline []).value := by
  have := r.dataStart_lt
  have hfront : (r.setInline []).value = r.front ++ [] := value_eq_front _
  rw [dropInlineData, r.realOffset_value 0 (by omega), hfront, r.value_eq_front, resize_append]
  simp [resize]

/-- `GetInlineData` reads the inline data as a byte array is read, if no sum that it takes
wraps around. -/
theorem getInlineData_slice (r : InodeRecord) (offset size : ℕ)
    (hoff : r.dataStart + offset < 2 ^ 64)
    (hsize : offset < r.inline.length → r.dataStart + offset + size < 2 ^ 64) :
    getInlineData r.value offset size
      = ((slice r.inline offset size).length, slice r.inline offset size) := by
  have hlen := r.length_value
  have hfront := r.length_front
  rw [getInlineData, r.realOffset_value offset hoff]
  dsimp only
  have hslice : ∀ n, slice r.value (r.front.length + offset) n = slice r.inline offset n := by
    intro n
    rw [slice, slice, r.value_eq_front, List.drop_append, List.drop_eq_nil_of_le (by omega),
      List.nil_append, Nat.add_sub_cancel_left]
  by_cases hin : r.front.length + offset < r.value.length
  · have hfit := hsize (by omega)
    rw [if_pos hin, Nat.mod_eq_of_lt (by omega)]
    by_cases hover : r.value.length < r.front.length + offset + size
    · have hcut : slice r.inline offset size
          = slice r.inline offset (r.value.length - (r.front.length + offset)) := by
        rw [slice, slice, List.take_of_length_le (by rw [List.length_drop]; omega),
          List.take_of_length_le (by rw [List.length_drop]; omega)]
      rw [if_pos hover, hslice, hcut]
      congr 1
      simp only [slice, List.length_take, List.length_drop]; omega
    · rw [if_neg hover, hslice]
      congr 1
      simp only [slice, List.length_take, List.length_drop]; omega
  · rw [if_neg hin, slice, List.drop_eq_nil_of_le (by omega), List.take_nil]; rfl

theorem getInlineData_value (r : InodeRecord) (offset size : ℕ)
    (hoff : r.dataStart + offset < 2 ^ 64) (hsize : r.value.length + size < 2 ^ 64) :
    getInlineData r.value offset size
      = ((slice r.inline offset size).length, slice r.inline offset size) := by
  have hlen := r.length_value
  apply r.getInlineData_slice offset size hoff
  intro hin
  omega

/-- A name without a NUL is read back whole. -/
theorem nameOf_value (r : InodeRecord) (h : 0 ∉ r.name) : nameOf r.value = r.name := by
  have hall : ∀ b ∈ r.name, (b ≠ 0 : Bool) = true := by
    intro b hb
    refine decide_eq_true ?_
    rintro rfl
    exact h hb
  rw [nameOf, value, List.drop_left' r.header.length_bytes, List.takeWhile_append_of_pos hall]
  simp

/-- Renaming a record puts the name in and its length, cut to 32 bits, in the header. -/
theorem renameInodeValue_eq (r : InodeRecord) (n : Bytes) :
    renameInodeValue r.value n =
      { r.header with namelen := .ofNat n.length }.bytes ++ (n ++ 0 :: r.inline) := by
  have hlen : r.header.bytes.length = TFS_INODE_HEADER_SIZE := r.header.length_bytes
  have hdrop : (r.name ++ 0 :: r.inline).drop (0 + (r.header.namelen.toNat + 1)) = r.inline := by
    rw [← r.namelen_eq, Nat.zero_add, List.drop_append, List.drop_eq_nil_of_le (by omega),
      Nat.add_sub_cancel_left, List.nil_append, List.drop_succ_cons, List.drop_zero]
  have hrepl : replace r.value TFS_INODE_HEADER_SIZE (r.header.namelen.toNat + 1) (n ++ [0])
      = r.header.bytes ++ (n ++ 0 :: r.inline) := by
    rw [← hlen, value]
    have := replace_append r.header.bytes (r.name ++ 0 :: r.inline) (n ++ [0]) 0
      (r.header.namelen.toNat + 1)
    rw [Nat.add_zero] at this
    rw [this, replace, hdrop]
    simp
  rw [renameInodeValue, getInodeHeader_value, hrepl, updateInodeHeader, updateIhandleValue,
    if_neg (Nat.not_lt_zero _), replace_front _ _ _ _ (by simp)]

/-- Renaming a record replaces its name and nothing else. -/
theorem renameInodeValue_value (r : InodeRecord) (n : Bytes) (hn : n.length < 2 ^ 32) :
    renameInodeValue r.value n = (r.setName n hn).value := r.renameInodeValue_eq n

end InodeRecord

end Tablefs
