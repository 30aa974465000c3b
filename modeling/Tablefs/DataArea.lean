/-
`Seek`, `Read` and `Write` of `TableFSWrapper` on a file whose data is inline: which
bytes of `value_` they reach.

`Seek` takes any `off_t`, and `Read` and `Write` hand it on. `GetInlineData` and
`UpdateInlineData` add it, as a `size_t`, to the place where the inline data starts. A
negative offset then points into the name or the header, or far behind the string.
`data_only_iff` says for which offsets and sizes a call stays within the data.

A call that would make the string longer than a string can be does not return:
`std::string::resize` throws, and nobody catches it.
-/
import Tablefs.Wrapper
import Tablefs.FileData

set_option autoImplicit false

namespace Tablefs

open ByteString

/-! ## What stands in front of the inline data -/

/-- Where the inline data starts: behind the header, the name and its NUL. -/
def dataOffset (value : Bytes) : ℕ :=
  TFS_INODE_HEADER_SIZE + (getInodeHeader value).namelen.toNat + 1

/-- `st_size` and `has_blob` apart, the header is as it was, and so are the name and its
NUL. -/
structure SameFront (value value' : Bytes) : Prop where
  header : ∃ n b, getInodeHeader value' = (getInodeHeader value).withSizeBlob n b
  name : slice value' TFS_INODE_HEADER_SIZE ((getInodeHeader value).namelen.toNat + 1) =
    slice value TFS_INODE_HEADER_SIZE ((getInodeHeader value).namelen.toNat + 1)

/-- Byte `i` of a header belongs to `st_size` or to `has_blob`. -/
def SizeOrBlob (i : ℕ) : Prop := 48 ≤ i ∧ i < 56 ∨ 248 ≤ i ∧ i < 252

theorem dataOffset_lt (value : Bytes) : dataOffset value < 2 ^ 33 := by
  have := (getInodeHeader value).namelen.toNat_lt
  rw [dataOffset, TFS_INODE_HEADER_SIZE]; omega

theorem header_lt_dataOffset (value : Bytes) : TFS_INODE_HEADER_SIZE < dataOffset value := by
  rw [dataOffset]; omega

/-- The two fields cut the bytes of a header into five parts. -/
theorem InodeHeader.withSizeBlob_bytes (h : InodeHeader) :
    ∃ p q : Bytes, p.length = 48 ∧ q.length = 192 ∧ ∀ n b, (h.withSizeBlob n b).bytes =
      p ++ (leBytes 8 n.toNat ++ (q ++ (leBytes 4 b.toNat ++ leBytes 4 h.namelen.toNat))) := by
  let p := packFields [8, 8, 8, 4, 4, 4, 4, 8] (h.fstat.fields.take 8)
  let q := packFields [8, 8, 8, 8, 8, 8, 8, 8, 24] (h.fstat.fields.drop 9) ++
    leBytes 104 h.padding.toNat
  have hq : (packFields [8, 8, 8, 8, 8, 8, 8, 8, 24] (h.fstat.fields.drop 9)).length = 88 :=
    length_packFields _ _ rfl
  refine ⟨p, q, length_packFields _ _ rfl, ?_, ?_⟩
  · rw [List.length_append, length_leBytes, hq]
  · intro n b
    simp only [p, q, InodeHeader.bytes, Stat.bytes, withSizeBlob, Stat.fields, Stat.widths,
      InodeHeader.widths, packFields, List.take_succ_cons, List.take_zero, List.drop_succ_cons,
      List.drop_zero, List.append_assoc, List.append_nil]

/-- Outside of `st_size` and `has_blob`, their values do not matter. -/
theorem InodeHeader.getElem?_withSizeBlob (h : InodeHeader) (n : UInt64) (b : UInt32) {i : ℕ}
    (hi : ¬ SizeOrBlob i) : (h.withSizeBlob n b).bytes[i]? = h.bytes[i]? := by
  obtain ⟨p, q, hp, hq, hbytes⟩ := h.withSizeBlob_bytes
  have hself : h.bytes = (h.withSizeBlob h.fstat.st_size h.has_blob).bytes := rfl
  rw [SizeOrBlob] at hi
  rw [hself, hbytes, hbytes]
  simp only [List.getElem?_append, length_leBytes, hp, hq]
  split_ifs <;> first | omega | rfl

/-- Headers with one `st_size` and one `has_blob` have the same bytes there. -/
theorem InodeHeader.getElem?_sizeOrBlob (h h' : InodeHeader) (n : UInt64) (b : UInt32) {i : ℕ}
    (hi : SizeOrBlob i) : (h.withSizeBlob n b).bytes[i]? = (h'.withSizeBlob n b).bytes[i]? := by
  obtain ⟨p, q, hp, hq, hbytes⟩ := h.withSizeBlob_bytes
  obtain ⟨p', q', hp', hq', hbytes'⟩ := h'.withSizeBlob_bytes
  rw [SizeOrBlob] at hi
  rw [hbytes, hbytes']
  simp only [List.getElem?_append, length_leBytes, hp, hq, hp', hq']
  split_ifs <;> first | omega | rfl

theorem getElem?_getInodeHeader {v : Bytes} (hv : TFS_INODE_HEADER_SIZE ≤ v.length) {i : ℕ}
    (hi : i < TFS_INODE_HEADER_SIZE) : (getInodeHeader v).bytes[i]? = v[i]? := by
  rw [getInodeHeader, InodeHeader.bytes_ofBytes hv, List.getElem?_take_of_lt hi]

/-- The front is the same if each byte is, those of `st_size` and `has_blob` aside. -/
theorem sameFront_iff {v v' : Bytes} (hv : dataOffset v ≤ v.length)
    (hv' : dataOffset v ≤ v'.length) :
    SameFront v v' ↔ ∀ i < dataOffset v, ¬ SizeOrBlob i → v'[i]? = v[i]? := by
  have hlt := header_lt_dataOffset v
  have hoff : dataOffset v = TFS_INODE_HEADER_SIZE + ((getInodeHeader v).namelen.toNat + 1) :=
    Nat.add_assoc _ _ _
  constructor
  · rintro ⟨⟨n, b, hheader⟩, hname⟩ i hi hslot
    by_cases hin : i < TFS_INODE_HEADER_SIZE
    · rw [← getElem?_getInodeHeader (by omega) hin, hheader,
        InodeHeader.getElem?_withSizeBlob _ _ _ hslot, getElem?_getInodeHeader (by omega) hin]
    · have hbyte := congrArg (fun bs : Bytes => bs[i - TFS_INODE_HEADER_SIZE]?) hname
      dsimp only [slice] at hbyte
      rw [List.getElem?_take_of_lt (by omega), List.getElem?_take_of_lt (by omega),
        List.getElem?_drop, List.getElem?_drop, Nat.add_sub_cancel' (by omega)] at hbyte
      exact hbyte
  · intro h
    constructor
    · -- the two fields may be new, the rest of the header is the old one
      let n := (getInodeHeader v').fstat.st_size
      let b := (getInodeHeader v').has_blob
      have hself : getInodeHeader v' = (getInodeHeader v').withSizeBlob n b := rfl
      have hbytes : (getInodeHeader v').bytes = ((getInodeHeader v).withSizeBlob n b).bytes := by
        apply List.ext_getElem?
        intro i
        by_cases hin : i < TFS_INODE_HEADER_SIZE
        · by_cases hslot : SizeOrBlob i
          · rw [hself]
            exact InodeHeader.getElem?_sizeOrBlob _ _ n b hslot
          · rw [InodeHeader.getElem?_withSizeBlob _ _ _ hslot,
              getElem?_getInodeHeader (by omega) hin, getElem?_getInodeHeader (by omega) hin]
            exact h i (by omega) hslot
        · rw [List.getElem?_eq_none (by rw [InodeHeader.length_bytes]; omega),
            List.getElem?_eq_none (by rw [InodeHeader.length_bytes]; omega)]
      refine ⟨n, b, ?_⟩
      have hdecode := congrArg (fun bs => InodeHeader.ofBytes (bs ++ [])) hbytes
      rwa [InodeHeader.ofBytes_bytes, InodeHeader.ofBytes_bytes] at hdecode
    · apply List.ext_getElem?
      intro j
      rw [slice, slice, List.getElem?_take, List.getElem?_take, List.getElem?_drop,
        List.getElem?_drop]
      by_cases hj : j < (getInodeHeader v).namelen.toNat + 1
      · rw [if_pos hj, if_pos hj]
        refine h _ (by omega) ?_
        rw [SizeOrBlob, TFS_INODE_HEADER_SIZE]
        omega
      · rw [if_neg hj, if_neg hj]

/-! ## Edits of a value -/

namespace SameFront

theorem refl (v : Bytes) : SameFront v v := ⟨⟨_, _, rfl⟩, rfl⟩

theorem dataOffset_eq {v v' : Bytes} (h : SameFront v v') : dataOffset v' = dataOffset v := by
  obtain ⟨n, b, hheader⟩ := h.header
  rw [dataOffset, hheader]
  rfl

/-- The name keeps its place in the value. -/
theorem le_length {v v' : Bytes} (h : SameFront v v') (hv : dataOffset v ≤ v.length) :
    dataOffset v' ≤ v'.length := by
  have hlen := congrArg List.length h.name
  rw [slice, slice, List.length_take, List.length_take, List.length_drop, List.length_drop] at hlen
  rw [h.dataOffset_eq]
  rw [dataOffset] at hv ⊢
  omega

theorem trans {u v w : Bytes} (h : SameFront u v) (h' : SameFront v w) : SameFront u w := by
  obtain ⟨n, b, hheader⟩ := h.header
  obtain ⟨n', b', hheader'⟩ := h'.header
  have hname := h'.name
  rw [hheader] at hname
  exact ⟨⟨n', b', by rw [hheader', hheader]; rfl⟩, hname.trans h.name⟩

end SameFront

/-- `UpdateInodeHeader` with another `st_size` and `has_blob` writes these alone. -/
theorem getElem?_updateInodeHeader {v : Bytes} (hv : TFS_INODE_HEADER_SIZE ≤ v.length) (n : UInt64)
    (b : UInt32) {i : ℕ} (hi : ¬ SizeOrBlob i) :
    (updateInodeHeader v ((getInodeHeader v).withSizeBlob n b))[i]? = v[i]? := by
  have hlen := ((getInodeHeader v).withSizeBlob n b).length_bytes
  rw [updateInodeHeader, updateIhandleValue, if_neg (Nat.not_lt_zero _),
    getElem?_replace (Nat.zero_le _), hlen]
  by_cases hin : i < TFS_INODE_HEADER_SIZE
  · rw [if_pos ⟨Nat.zero_le i, by omega⟩, Nat.sub_zero,
      InodeHeader.getElem?_withSizeBlob _ _ _ hi, getElem?_getInodeHeader hv hin]
  · rw [if_neg (by omega)]

theorem length_updateInodeHeader {v : Bytes} (hv : TFS_INODE_HEADER_SIZE ≤ v.length)
    (h : InodeHeader) : (updateInodeHeader v h).length = v.length := by
  have hlen := h.length_bytes
  rw [updateInodeHeader, updateIhandleValue, if_neg (Nat.not_lt_zero _), replace]
  simp only [List.length_append, List.length_take, List.length_drop]
  omega

theorem SameFront.updateInodeHeader {v : Bytes} (hv : dataOffset v ≤ v.length) (n : UInt64)
    (b : UInt32) :
    SameFront v (updateInodeHeader v ((getInodeHeader v).withSizeBlob n b)) := by
  have hlt := header_lt_dataOffset v
  rw [sameFront_iff hv (by rw [length_updateInodeHeader (by omega)]; exact hv)]
  intro i _ hi
  exact getElem?_updateInodeHeader (by omega) n b hi

theorem SameFront.dropInlineData {v : Bytes} (hv : dataOffset v ≤ v.length) :
    SameFront v (dropInlineData v) := by
  have hlt := dataOffset_lt v
  have hdrop : Tablefs.dropInlineData v = resize v (dataOffset v) := by
    rw [Tablefs.dropInlineData, realOffset, Nat.add_zero, ← dataOffset,
      Nat.mod_eq_of_lt (by omega)]
  rw [hdrop, sameFront_iff hv (length_resize _ _).ge]
  intro i hi _
  exact getElem?_resize (by omega) hi

/-- What `UpdateInlineData` writes, and what it leaves. -/
theorem getElem?_updateInlineData (v buf : Bytes) (offset : ℕ) {i : ℕ} (hi : i < v.length) :
    (updateInlineData v buf offset)[i]? =
      if realOffset v offset ≤ i ∧ i < realOffset v offset + buf.length then
        buf[i - realOffset v offset]?
      else v[i]? := by
  rw [updateInlineData, updateIhandleValue]
  by_cases hlt : v.length < realOffset v offset
  · rw [if_pos hlt, getElem?_replace (length_resize _ _).ge, getElem?_resize hi (by omega)]
  · rw [if_neg hlt, getElem?_replace (by omega)]

theorem length_updateInlineData (v buf : Bytes) (offset : ℕ) :
    (updateInlineData v buf offset).length
      = max v.length (realOffset v offset + buf.length) := by
  rw [updateInlineData, updateIhandleValue]
  by_cases hlt : v.length < realOffset v offset
  · rw [if_pos hlt, replace]
    simp only [List.length_append, List.length_take, List.length_drop, length_resize]
    omega
  · rw [if_neg hlt, replace]
    simp only [List.length_append, List.length_take, List.length_drop]
    omega

/-! ## `Read` and `Write` of an inline file -/

/-- What `memcpy` in `GetInlineData` reads of the value: where it starts, and how many bytes. -/
def copied (value : Bytes) (offset size : ℕ) : ℕ × ℕ :=
  let realoffset := realOffset value offset
  if realoffset < value.length then
    (realoffset, if value.length < (realoffset + size) % 2 ^ 64 then value.length - realoffset
      else size)
  else (realoffset, 0)

theorem getInlineData_copied (value : Bytes) (offset size : ℕ) :
    getInlineData value offset size = ((copied value offset size).2,
      slice value (copied value offset size).1 (copied value offset size).2) := by
  rw [getInlineData, copied]
  dsimp only
  by_cases hlt : realOffset value offset < value.length
  · rw [if_pos hlt, if_pos hlt]
  · rw [if_neg hlt, if_neg hlt, slice, List.take_zero]

/-- `std::string::max_size` -/
def stringMaxSize : ℕ := 2 ^ 63 - 1

namespace World

variable {w : World} {fh : ℕ} {f : FileHandle}

/-- `Write` asks `UpdateInlineData` for a longer string than there can be. -/
def WriteThrows (w : World) (f : FileHandle) (buf : Bytes) (offset : ℤ) : Prop :=
  ¬ sizeT w.threshold_ < sizeT (offset + buf.length) ∧
    stringMaxSize < (updateInlineData (w.store.value f.handle_) buf (sizeT offset)).length

theorem unlock_value (w : World) (key : MetaKey) (i : ℕ) :
    (w.unlock key).store.value i = w.store.value i := rfl

/-- `Read` answers with what `GetInlineData` copies. -/
theorem read_inline (hf : w.files fh = some f) (hinline : (w.iheader f.handle_).has_blob = 0)
    (size : ℕ) (offset : ℤ) :
    (w.read fh size offset).2 = (let c := copied (w.store.value f.handle_) (sizeT offset) size
      (cInt c.2, slice (w.store.value f.handle_) c.1 c.2)) := by
  have hlock : (w.readLock (w.store.keyOf f.handle_)).iheader f.handle_ = w.iheader f.handle_ := rfl
  rw [read, hf]
  dsimp only
  rw [hlock, hinline, if_neg (by decide)]
  show (cInt _, _) = _
  rw [show (w.readLock (w.store.keyOf f.handle_)).store.value f.handle_
    = w.store.value f.handle_ from rfl, getInlineData_copied]

theorem migrateToDiskFile_sameFront (w : World) (handle : ℕ) (fd : ℤ) (flags : OpenFlags)
    (hv : dataOffset (w.store.value handle) ≤ (w.store.value handle).length) :
    SameFront (w.store.value handle)
      ((w.migrateToDiskFile handle fd flags).1.store.value handle) := by
  have hclose : w.UpToData (if 0 ≤ fd then (w.sysClose fd).1 else w) := by
    split
    · exact upToData_sysClose w fd
    · exact UpToData.refl w
  unfold migrateToDiskFile
  dsimp only
  generalize (if 0 ≤ fd then (w.sysClose fd).1 else w) = wc at hclose ⊢
  have hopen : w.UpToData (wc.openDiskFile (w.iheader handle) flags).1 :=
    hclose.trans (upToData_sysOpen _ _ _ _)
  split
  · rw [hopen.value]
    exact SameFront.refl _
  · split
    · have hwrite := hopen.trans (upToData_sysPwrite _
        (wc.openDiskFile (w.iheader handle) flags).2
        (resize (((wc.openDiskFile (w.iheader handle) flags).1.store.value handle).drop
          (TFS_INODE_HEADER_SIZE + (w.iheader handle).namelen.toNat + 1))
          (w.iheader handle).fstat.st_size.toNat) 0)
      rw [setValue_value, hwrite.value]
      exact SameFront.dropInlineData hv
    · rw [hopen.value]
      exact SameFront.refl _

theorem setHeader_sameFront (w : World) (handle : ℕ)
    (hv : dataOffset (w.store.value handle) ≤ (w.store.value handle).length) (n : UInt64)
    (b : UInt32) :
    SameFront (w.store.value handle)
      ((w.setHeader handle ((w.iheader handle).withSizeBlob n b)).store.value handle) := by
  rw [setHeader, setValue_value]
  exact SameFront.updateInodeHeader hv n b

theorem writeMigrate_sameFront (w : World) (fh : ℕ) (f : FileHandle) (buf : Bytes) (offset : ℤ)
    (total : ℕ)
    (hv : dataOffset (w.store.value f.handle_) ≤ (w.store.value f.handle_).length) :
    SameFront (w.store.value f.handle_)
      ((w.writeMigrate fh f buf offset total).1.store.value f.handle_) := by
  have hm := w.migrateToDiskFile_sameFront f.handle_ f.fd_ f.flags_ hv
  unfold writeMigrate
  dsimp only
  generalize w.migrateToDiskFile f.handle_ f.fd_ f.flags_ = m at hm ⊢
  have hset : (m.1.setFd fh f m.2.2).store.value f.handle_ = m.1.store.value f.handle_ := rfl
  split
  · have hheader := (m.1.setFd fh f m.2.2).setHeader_sameFront f.handle_
      (by rw [hset]; exact hm.le_length hv) (.ofNat total) 1
    have hwrite := upToData_sysPwrite ((m.1.setFd fh f m.2.2).setHeader f.handle_
      (((m.1.setFd fh f m.2.2).iheader f.handle_).withSizeBlob (.ofNat total) 1)) m.2.2 buf offset
    rw [hwrite.value]
    exact hm.trans hheader
  · exact hm

/-- The last edit of the header is one of `st_size`. -/
theorem grown_sameFront (w : World) (i n : ℕ) (grows : Bool)
    (hv : dataOffset (w.store.value i) ≤ (w.store.value i).length) :
    SameFront (w.store.value i) ((w.grown i n grows).store.value i) := by
  unfold grown
  split
  · exact w.setHeader_sameFront i hv (.ofNat n) (w.iheader i).has_blob
  · exact SameFront.refl _

theorem getElem?_grown (w : World) (i n : ℕ) (grows : Bool)
    (hv : TFS_INODE_HEADER_SIZE ≤ (w.store.value i).length) {j : ℕ} (hj : ¬ SizeOrBlob j) :
    ((w.grown i n grows).store.value i)[j]? = (w.store.value i)[j]? := by
  unfold grown
  split
  · rw [setHeader, setValue_value]
    exact getElem?_updateInodeHeader hv (.ofNat n) (w.iheader i).has_blob hj
  · rfl

theorem length_grown (w : World) (i n : ℕ) (grows : Bool)
    (hv : TFS_INODE_HEADER_SIZE ≤ (w.store.value i).length) :
    ((w.grown i n grows).store.value i).length = (w.store.value i).length := by
  unfold grown
  split
  · rw [setHeader, setValue_value]
    exact length_updateInodeHeader hv _
  · rfl

theorem writeData_inline (hinline : (w.iheader f.handle_).has_blob = 0) (buf : Bytes) (offset : ℤ)
    (total : ℕ) :
    w.writeData fh f buf offset total =
      if sizeT w.threshold_ < total then w.writeMigrate fh f buf offset total
      else (w.setValue f.handle_ (updateInlineData (w.store.value f.handle_) buf (sizeT offset)),
        cInt buf.length, false) := by
  rw [writeData, hinline]
  exact if_neg (by decide)

/-- A `Write` that moves the data to the disk file keeps the front. -/
theorem write_migrate_sameFront (hf : w.files fh = some f)
    (hinline : (w.iheader f.handle_).has_blob = 0)
    (hv : dataOffset (w.store.value f.handle_) ≤ (w.store.value f.handle_).length)
    {buf : Bytes} {offset : ℤ} (hlarge : sizeT w.threshold_ < sizeT (offset + buf.length)) :
    SameFront (w.store.value f.handle_)
      ((w.write fh buf offset).1.store.value f.handle_) := by
  have hvalue := w.writeStart_value f
  have hblob : ((w.writeStart f).iheader f.handle_).has_blob = 0 := by
    rw [iheader, hvalue]
    exact hinline
  have hm := (w.writeStart f).writeMigrate_sameFront fh f buf offset (sizeT (offset + buf.length))
    (by rw [hvalue]; exact hv)
  rw [write_eq hf, written]
  dsimp only
  rw [writeData_inline hblob, if_pos (show sizeT (w.writeStart f).threshold_ < _ from hlarge)]
  rw [hvalue] at hm
  exact hm.trans (grown_sameFront _ _ _ _ (hm.le_length hv))

/-- A `Write` that leaves the data inline: `UpdateInlineData`, and then perhaps `st_size`. -/
theorem write_inline (hf : w.files fh = some f) (hinline : (w.iheader f.handle_).has_blob = 0)
    (hv : TFS_INODE_HEADER_SIZE ≤ (w.store.value f.handle_).length) {buf : Bytes} {offset : ℤ}
    (hsmall : ¬ sizeT w.threshold_ < sizeT (offset + buf.length)) :
    ((w.write fh buf offset).1.store.value f.handle_).length =
        (updateInlineData (w.store.value f.handle_) buf (sizeT offset)).length ∧
      ∀ j, ¬ SizeOrBlob j → ((w.write fh buf offset).1.store.value f.handle_)[j]? =
        (updateInlineData (w.store.value f.handle_) buf (sizeT offset))[j]? := by
  have hvalue := w.writeStart_value f
  have hblob : ((w.writeStart f).iheader f.handle_).has_blob = 0 := by
    rw [iheader, hvalue]
    exact hinline
  have hlen : TFS_INODE_HEADER_SIZE ≤
      (updateInlineData (w.store.value f.handle_) buf (sizeT offset)).length := by
    rw [length_updateInlineData]; omega
  rw [write_eq hf, written]
  dsimp only
  rw [writeData_inline hblob, if_neg (show ¬ sizeT (w.writeStart f).threshold_ < _ from hsmall)]
  rw [hvalue]
  have hedited := setValue_value (w.writeStart f) f.handle_
    (updateInlineData (w.store.value f.handle_) buf (sizeT offset))
  generalize updateInlineData (w.store.value f.handle_) buf (sizeT offset) = v at hlen hedited ⊢
  generalize (w.writeStart f).setValue f.handle_ v = wd at hedited ⊢
  rw [unlock_value, ← hedited]
  rw [← hedited] at hlen
  exact ⟨length_grown wd f.handle_ _ _ hlen, fun j hj => getElem?_grown wd f.handle_ _ _ hlen hj⟩

/-- In a reachable state the value of an open file has a name of the length its header says. -/
theorem Reachable.dataOffset_le (h : w.Reachable) (hf : w.files fh = some f) :
    dataOffset (w.store.value f.handle_) ≤ (w.store.value f.handle_).length := by
  have hlive : w.store.cache.Live f.handle_ := Or.inr (h.accounted.pinned_of_file hf)
  obtain ⟨r, hr, -⟩ := h.records.all.live f.handle_ hlive
  rw [← hr, dataOffset, r.getInodeHeader_value, ← r.namelen_eq, r.length_value]
  exact Nat.le_add_right _ _

end World

/-! ## What the offset and the size have to satisfy -/

/-- `Read` copies nothing: for want of a size, or since the offset wraps far behind the value
or points behind its end. Or it starts in the data, and `realoffset + size` does not wrap. -/
def CopyStays (start length : ℕ) (offset : ℤ) (size : ℕ) : Prop :=
  size = 0 ∨ start + offset < 0 ∨ (length : ℤ) ≤ start + offset ∨
    0 ≤ offset ∧ start + offset + size < 2 ^ 64

/-- `Write` moves the data to the disk file, for a size that is past the threshold as a
`size_t`. Or the string it makes is not too long, and it starts in the data; with a negative
threshold it may also write nothing, or stay within `st_size` or `has_blob`. -/
def WriteStays (threshold : ℤ) (start : ℕ) (offset : ℤ) (size : ℕ) : Prop :=
  sizeT threshold < sizeT (offset + size) ∨
    0 ≤ start + offset ∧ start + offset + size ≤ stringMaxSize ∧
      (0 ≤ offset ∨ size = 0 ∨ 48 ≤ start + offset ∧ start + offset + size ≤ 56 ∨
        248 ≤ start + offset ∧ start + offset + size ≤ 252)

theorem exists_other_byte (b : UInt8) : ∃ b' : UInt8, b' ≠ b := by
  by_cases h : b = 0
  · exact ⟨1, by rw [h]; decide⟩
  · exact ⟨0, Ne.symm h⟩

/-- A range of bytes has no byte of the front to change, but those of the two fields. -/
theorem range_spares_iff {start : ℕ} (h : TFS_INODE_HEADER_SIZE < start) (from_ size : ℕ) :
    (∀ i < start, ¬ SizeOrBlob i → ¬ (from_ ≤ i ∧ i < from_ + size)) ↔
      start ≤ from_ ∨ size = 0 ∨ 48 ≤ from_ ∧ from_ + size ≤ 56 ∨
        248 ≤ from_ ∧ from_ + size ≤ 252 := by
  simp only [SizeOrBlob]
  rw [TFS_INODE_HEADER_SIZE] at h
  constructor
  · intro hout
    -- the first byte of the range, and the one behind each field
    have hfirst := hout from_
    have hsize := hout 56
    have hblob := hout 252
    omega
  · intro hcases i hi hslot hin
    omega

theorem copied_stays_iff {v : Bytes} (hv : dataOffset v ≤ v.length)
    (hmax : v.length ≤ stringMaxSize) {offset : ℤ} (ho : -2 ^ 63 ≤ offset ∧ offset < 2 ^ 63)
    {size : ℕ} (hs : size < 2 ^ 64) :
    ((copied v (sizeT offset) size).2 = 0 ∨ dataOffset v ≤ (copied v (sizeT offset) size).1 ∧
        (copied v (sizeT offset) size).1 + (copied v (sizeT offset) size).2 ≤ v.length) ↔
      CopyStays (dataOffset v) v.length offset size := by
  have hlt := dataOffset_lt v
  have hreal : realOffset v (sizeT offset) = (dataOffset v + (offset % 2 ^ 64).toNat) % 2 ^ 64 := rfl
  rw [stringMaxSize] at hmax
  rw [copied, CopyStays]
  generalize realOffset v (sizeT offset) = r at hreal ⊢
  by_cases hin : r < v.length
  · rw [if_pos hin]
    dsimp only
    by_cases hcut : v.length < (r + size) % 2 ^ 64
    · rw [if_pos hcut]
      omega
    · rw [if_neg hcut]
      omega
  · rw [if_neg hin]
    dsimp only
    omega

theorem World.write_stays_iff {w : World} {fh : ℕ} {f : FileHandle} (hf : w.files fh = some f)
    (hinline : (w.iheader f.handle_).has_blob = 0)
    (hv : dataOffset (w.store.value f.handle_) ≤ (w.store.value f.handle_).length)
    (hmax : (w.store.value f.handle_).length ≤ stringMaxSize) {offset : ℤ}
    (ho : -2 ^ 63 ≤ offset ∧ offset < 2 ^ 63) (size : ℕ) :
    (∀ buf : Bytes, buf.length = size → ¬ w.WriteThrows f buf offset ∧
        SameFront (w.store.value f.handle_) ((w.write fh buf offset).1.store.value f.handle_)) ↔
      WriteStays w.threshold_ (dataOffset (w.store.value f.handle_)) offset size := by
  have hhead := header_lt_dataOffset (w.store.value f.handle_)
  have hlt := dataOffset_lt (w.store.value f.handle_)
  have hreal : realOffset (w.store.value f.handle_) (sizeT offset)
    = (dataOffset (w.store.value f.handle_) + (offset % 2 ^ 64).toNat) % 2 ^ 64 := rfl
  rw [WriteStays]
  by_cases hlarge : sizeT w.threshold_ < sizeT (offset + size)
  · refine iff_of_true ?_ (Or.inl hlarge)
    rintro buf rfl
    exact ⟨fun h => h.1 hlarge, write_migrate_sameFront hf hinline hv hlarge⟩
  · -- the bytes of `buf` go to the place that the offset wraps to
    have hsame : ∀ buf : Bytes, buf.length = size →
        (SameFront (w.store.value f.handle_) ((w.write fh buf offset).1.store.value f.handle_) ↔
          ∀ i < dataOffset (w.store.value f.handle_), ¬ SizeOrBlob i →
            (updateInlineData (w.store.value f.handle_) buf (sizeT offset))[i]?
              = (w.store.value f.handle_)[i]?) := by
      rintro buf rfl
      obtain ⟨hlen, hbytes⟩ := write_inline hf hinline (by omega) hlarge
      rw [length_updateInlineData] at hlen
      rw [sameFront_iff hv (by omega)]
      refine forall₂_congr fun i _ => forall_congr' fun hi => ?_
      rw [hbytes i hi]
    have hthrows : ∀ buf : Bytes, buf.length = size → (¬ w.WriteThrows f buf offset ↔
        realOffset (w.store.value f.handle_) (sizeT offset) + size ≤ stringMaxSize) := by
      rintro buf rfl
      rw [WriteThrows, length_updateInlineData, and_iff_right hlarge, not_lt]
      exact ⟨fun h => le_trans (le_max_right _ _) h, fun h => max_le hmax h⟩
    have hspares := range_spares_iff hhead
      (realOffset (w.store.value f.handle_) (sizeT offset)) size
    constructor
    · intro hall
      have hlen := (hthrows (List.replicate size 0) List.length_replicate).mp
        (hall _ List.length_replicate).1
      rcases hspares.mp (by
        intro i hi hslot hin
        -- some byte differs from the one that is there
        obtain ⟨b, hb⟩ := exists_other_byte (w.store.value f.handle_)[i]
        have hbyte := (hsame _ List.length_replicate).mp
          (hall (List.replicate size b) List.length_replicate).2 i hi hslot
        rw [getElem?_updateInlineData _ _ _ (by omega), List.length_replicate, if_pos hin,
          List.getElem?_replicate, if_pos (by omega), List.getElem?_eq_getElem (by omega)] at hbyte
        exact hb (Option.some.inj hbyte)) with h | h | h | h
      all_goals
        right
        rw [stringMaxSize] at hlen ⊢
        omega
    · rintro (h | ⟨hpos, hlen, hcases⟩)
      · exact absurd h hlarge
      rw [stringMaxSize] at hlen
      have hout := hspares.mpr (by omega)
      intro buf hbuf
      refine ⟨(hthrows buf hbuf).mpr (by rw [stringMaxSize]; omega), (hsame buf hbuf).mpr ?_⟩
      intro i hi hslot
      rw [getElem?_updateInlineData _ _ _ (by omega), hbuf, if_neg (hout i hi hslot)]

namespace Wrapper

/-- On an open descriptor, `Read` of `size` bytes copies nothing but inline data, and `Write` of
any `size` bytes returns and changes nothing but the inline data, `st_size` and `has_blob`. -/
structure DataOnly (s : Wrapper) (fd size : ℕ) : Prop where
  read : ∀ d f, s.fds fd = some d → s.fs.files d.fh = some f →
    (copied (s.fs.store.value f.handle_) (sizeT d.offset) size).2 = 0 ∨
      dataOffset (s.fs.store.value f.handle_)
          ≤ (copied (s.fs.store.value f.handle_) (sizeT d.offset) size).1 ∧
        (copied (s.fs.store.value f.handle_) (sizeT d.offset) size).1
          + (copied (s.fs.store.value f.handle_) (sizeT d.offset) size).2
          ≤ (s.fs.store.value f.handle_).length
  write : ∀ d f, s.fds fd = some d → s.fs.files d.fh = some f → ∀ buf : Bytes, buf.length = size →
    ¬ s.fs.WriteThrows f buf d.offset ∧
      SameFront (s.fs.store.value f.handle_) ((s.write fd buf).1.fs.store.value f.handle_)

theorem write_fs {s : Wrapper} {fd : ℕ} {d : Descriptor} (hd : s.fds fd = some d) (buf : Bytes) :
    (s.write fd buf).1.fs = (s.fs.write d.fh buf d.offset).1 := by
  rw [write, hd]
  dsimp only
  rw [advance]
  split <;> rfl

variable {s : Wrapper} {fd : ℕ} {d : Descriptor} {f : FileHandle}

/-- After `Seek` to any offset, `Read` and `Write` of a size stay within the inline data of an
open descriptor's file exactly if the offset and the size stay within it. -/
theorem data_only_iff (hd : s.fds fd = some d) (hf : s.fs.files d.fh = some f)
    (hinline : (s.fs.iheader f.handle_).has_blob = 0)
    (hv : dataOffset (s.fs.store.value f.handle_) ≤ (s.fs.store.value f.handle_).length)
    (hmax : (s.fs.store.value f.handle_).length ≤ stringMaxSize) {offset : ℤ}
    (ho : -2 ^ 63 ≤ offset ∧ offset < 2 ^ 63) {size : ℕ} (hs : size < 2 ^ 64) :
    (s.seek fd offset).1.DataOnly fd size ↔
      CopyStays (dataOffset (s.fs.store.value f.handle_)) (s.fs.store.value f.handle_).length
          offset size ∧
        WriteStays s.fs.threshold_ (dataOffset (s.fs.store.value f.handle_)) offset size := by
  have hseek : (s.seek fd offset).1 = s.setFd fd (some { d with offset := offset }) := by
    rw [seek, hd]
  have hfd : (s.seek fd offset).1.fds fd = some { d with offset := offset } := by
    rw [hseek, setFd_fds_self]
  have hfs : (s.seek fd offset).1.fs = s.fs := by
    rw [hseek]
    rfl
  rw [← copied_stays_iff hv hmax ho hs, ← World.write_stays_iff hf hinline hv hmax ho size]
  constructor
  · intro h
    have hread := h.read _ f hfd (by rw [hfs]; exact hf)
    rw [hfs] at hread
    refine ⟨hread, fun buf hbuf => ?_⟩
    have hwrite := h.write _ f hfd (by rw [hfs]; exact hf) buf hbuf
    rwa [write_fs hfd, hfs] at hwrite
  · rintro ⟨hread, hwrite⟩
    -- the descriptor and its file are the ones given
    have hsame : ∀ d' f', (s.seek fd offset).1.fds fd = some d' →
        (s.seek fd offset).1.fs.files d'.fh = some f' →
        d' = { d with offset := offset } ∧ f' = f := by
      intro d' f' hd' hf'
      have hd'' := Option.some.inj (hd'.symm.trans hfd)
      rw [hfs, hd''] at hf'
      exact ⟨hd'', Option.some.inj (hf'.symm.trans hf)⟩
    constructor
    · intro d' f' hd' hf'
      obtain ⟨rfl, rfl⟩ := hsame d' f' hd' hf'
      rw [hfs]
      exact hread
    · intro d' f' hd' hf' buf hbuf
      obtain ⟨rfl, rfl⟩ := hsame d' f' hd' hf'
      rw [write_fs hfd, hfs]
      exact hwrite buf hbuf

/-- A file is made and opened, and has one byte written to it. -/
def byteWritten : Wrapper :=
  Transition.run next (setup Durable.empty plainConfig)
    [.mknod [47, 97] 0 0, .openFile [47, 97] O_RDWR, .write 0 [7]]

theorem byteWritten_data_only : (byteWritten.seek 0 0).1.DataOnly 0 1 := by
  have hd : byteWritten.fds 0 = some ⟨[47, 97], 1, O_RDWR, 0⟩ := by decide +kernel
  have hf : byteWritten.fs.files 0 = some ⟨0, O_RDWR, -1⟩ := by decide +kernel
  refine (data_only_iff hd hf (by decide +kernel) (by decide +kernel) (by decide +kernel)
    (by decide) (by decide)).mpr ?_
  rw [CopyStays, WriteStays]
  decide +kernel

/-- Two bytes in front of the data stands the last byte of the name. -/
theorem seek_leaves_data :
    ¬ ∀ (ops : List WrapperOp) (fd : ℕ) (offset : ℤ) (size : ℕ),
      -2 ^ 63 ≤ offset ∧ offset < 2 ^ 63 → size < 2 ^ 64 →
      ((Transition.run next (setup Durable.empty plainConfig) ops).seek fd offset).1.DataOnly
        fd size := by
  intro hall
  have hread := (hall [.mknod [47, 97] 0 0, .openFile [47, 97] O_RDWR] 0 (-2) 1 (by decide)
    (by decide)).read ⟨[47, 97], -2, O_RDWR, 0⟩ ⟨0, O_RDWR, -1⟩
  revert hread
  decide +kernel

end Wrapper

end Tablefs
