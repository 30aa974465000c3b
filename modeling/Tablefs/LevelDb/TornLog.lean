/-
What the reader of a log gives back: the records, and of a log that was cut anywhere and
filled up with zeros, the first of them.

The writer's bytes are a row of pieces, `layout`: padding to the end of a block where a header
does not fit, then a physical record. The reader is followed by `At r b data`: it is `b` bytes
into a block and has `data` before it. One piece is one physical record read (`parse_piece`),
the fragments of a record are one `ReadRecord` (`readRecordLoop_whole`). Behind the cut the
reader finds nothing any more (`Dead`).
-/
import Tablefs.LevelDb.LogFile

set_option autoImplicit false

namespace Tablefs

namespace LevelDb

namespace Log

open ByteString

/-! ## The layout of the file -/

/-- A physical record. -/
abbrev Frag := RecordType × Bytes

/-- Where in the block the next physical record starts. -/
def place (b : ℕ) : ℕ := if kBlockSize - b < kHeaderSize then 0 else b

/-- The zeros before it. -/
def pad (b : ℕ) : Bytes :=
  if kBlockSize - b < kHeaderSize then List.replicate (kBlockSize - b) 0 else []

def physical (f : Frag) : Bytes := header f.1 f.2 ++ f.2

/-- Where in the block it ends. -/
def after (b : ℕ) (f : Frag) : ℕ := place b + kHeaderSize + f.2.length

def layout : ℕ → List Frag → Bytes
  | _, [] => []
  | b, f :: fs => pad b ++ physical f ++ layout (after b f) fs

def endOff : ℕ → List Frag → ℕ
  | b, [] => b
  | b, f :: fs => endOff (after b f) fs

/-- Every physical record lies in its block. -/
def Fit : ℕ → List Frag → Prop
  | _, [] => True
  | b, f :: fs => after b f ≤ kBlockSize ∧ Fit (after b f) fs

/-- The physical records of a record, past its first. -/
inductive Tail : Bytes → List Frag → Prop
  | last (p : Bytes) : Tail p [(.kLastType, p)]
  | middle (p : Bytes) {q : Bytes} {fs : List Frag} (h : Tail q fs) :
      Tail (p ++ q) ((.kMiddleType, p) :: fs)

/-- The physical records of a record. -/
inductive Whole : Bytes → List Frag → Prop
  | full (p : Bytes) : Whole p [(.kFullType, p)]
  | first (p : Bytes) {q : Bytes} {fs : List Frag} (h : Tail q fs) :
      Whole (p ++ q) ((.kFirstType, p) :: fs)

/-- The physical records that `AddRecord` emits, with `n` turns left. -/
def fragments : ℕ → ℕ → Bool → Bytes → List Frag
  | 0, _, _, _ => []
  | n + 1, b, atBegin, ptr =>
      let w : Writer := ⟨[], place b⟩
      let fragment_length := w.fragmentLength ptr
      let f := (w.fragmentType atBegin ptr, ptr.take fragment_length)
      if 0 < (ptr.drop fragment_length).length then
        f :: fragments n (after b f) false (ptr.drop fragment_length)
      else [f]

theorem place_le {b : ℕ} (h : b ≤ kBlockSize) : place b + kHeaderSize ≤ kBlockSize := by
  unfold place kBlockSize kHeaderSize at *
  split <;> omega

@[simp] theorem length_header (t : RecordType) (ptr : Bytes) :
    (header t ptr).length = kHeaderSize := by
  rw [header, List.length_append, length_encodeFixed32]
  rfl

@[simp] theorem length_physical (f : Frag) :
    (physical f).length = kHeaderSize + f.2.length := by
  rw [physical, List.length_append, length_header]

theorem switchBlock_eq (w : Writer) :
    w.switchBlock = ⟨w.dest_ ++ pad w.block_offset_, place w.block_offset_⟩ := by
  rw [Writer.switchBlock, pad, place]
  split
  · rfl
  · rw [List.append_nil]

theorem fragmentLength_le (w : Writer) (ptr : Bytes) : w.fragmentLength ptr ≤ ptr.length := by
  unfold Writer.fragmentLength
  dsimp only
  split <;> omega

/-- The loop of `AddRecord` appends the layout of what it emits. -/
theorem addLoop_eq {n : ℕ} (w : Writer) (atBegin : Bool) (ptr : Bytes) :
    w.addLoop n atBegin ptr
      = ⟨w.dest_ ++ layout w.block_offset_ (fragments n w.block_offset_ atBegin ptr),
        endOff w.block_offset_ (fragments n w.block_offset_ atBegin ptr)⟩ := by
  induction n generalizing w atBegin ptr with
  | zero =>
      rw [Writer.addLoop, fragments, layout, endOff, List.append_nil]
  | succ n ih =>
      rw [Writer.addLoop, switchBlock_eq, fragments]
      have hlen : ∀ d, Writer.fragmentLength ⟨d, place w.block_offset_⟩ ptr
          = Writer.fragmentLength ⟨[], place w.block_offset_⟩ ptr := fun _ => rfl
      have htype : ∀ d, Writer.fragmentType ⟨d, place w.block_offset_⟩ atBegin ptr
          = Writer.fragmentType ⟨[], place w.block_offset_⟩ atBegin ptr := fun _ => rfl
      rw [hlen, htype]
      split
      · rw [ih, layout, endOff]
        simp only [Writer.emitPhysicalRecord, after, physical, List.append_assoc]
      · rw [layout, layout, endOff, endOff]
        simp only [Writer.emitPhysicalRecord, after, physical, List.append_assoc, List.append_nil]

/-- The bytes of a record that go into this block. -/
def room (b : ℕ) : ℕ := kBlockSize - place b - kHeaderSize

/-- A turn ends the record, or fills the block. -/
theorem fragments_succ {n b : ℕ} (hb : b ≤ kBlockSize) (atBegin : Bool) (ptr : Bytes) :
    fragments (n + 1) b atBegin ptr =
      if ptr.length ≤ room b then [(if atBegin then .kFullType else .kLastType, ptr)]
      else (if atBegin then .kFirstType else .kMiddleType, ptr.take (room b)) ::
        fragments n kBlockSize false (ptr.drop (room b)) := by
  have hplace := place_le hb
  have hlen : Writer.fragmentLength ⟨[], place b⟩ ptr
      = if ptr.length < room b then ptr.length else room b := rfl
  rw [fragments]
  by_cases hend : ptr.length ≤ room b
  · have hall : Writer.fragmentLength ⟨[], place b⟩ ptr = ptr.length := by
      rw [hlen]
      split <;> omega
    rw [if_pos hend, hall, if_neg (by rw [List.length_drop]; omega), List.take_length]
    cases atBegin <;> simp [Writer.fragmentType, hall]
  · have hroom : Writer.fragmentLength ⟨[], place b⟩ ptr = room b := by
      rw [hlen, if_neg (by omega)]
    have htype : Writer.fragmentType ⟨[], place b⟩ atBegin ptr
        = if atBegin then .kFirstType else .kMiddleType := by
      have hne : ptr.length ≠ room b := by omega
      cases atBegin <;> simp [Writer.fragmentType, hroom, hne]
    rw [if_neg hend, hroom, htype, if_pos (by rw [List.length_drop]; omega)]
    congr 2
    rw [after, List.length_take, room, Nat.min_eq_left (by rw [room] at hend; omega)]
    omega

/-- The turns that are enough: one more when there is room for a header only. -/
def turns (b : ℕ) (ptr : Bytes) : ℕ := ptr.length + if room b = 0 then 1 else 0

theorem room_block : room kBlockSize = 32761 := rfl

theorem turns_drop {b : ℕ} {ptr : Bytes} (h : ¬ ptr.length ≤ room b) :
    turns kBlockSize (ptr.drop (room b)) < turns b ptr := by
  unfold turns
  rw [room_block, if_neg (by decide), List.length_drop]
  split <;> omega

theorem after_le {b : ℕ} (hb : b ≤ kBlockSize) {f : Frag} (h : f.2.length ≤ room b) :
    after b f ≤ kBlockSize := by
  have := place_le hb
  unfold after room at *
  omega

theorem after_take {b : ℕ} (hb : b ≤ kBlockSize) {ptr : Bytes} (h : ¬ ptr.length ≤ room b)
    (t : RecordType) : after b (t, ptr.take (room b)) = kBlockSize := by
  have hplace := place_le hb
  have hlen : (ptr.take (room b)).length = room b := by
    rw [List.length_take]
    omega
  simp only [after, hlen]
  unfold room
  omega

theorem fragments_tail {n b : ℕ} (hb : b ≤ kBlockSize) {ptr : Bytes} (hn : turns b ptr < n) :
    Fit b (fragments n b false ptr) ∧ Tail ptr (fragments n b false ptr) := by
  induction n generalizing b ptr with
  | zero => exact absurd hn (Nat.not_lt_zero _)
  | succ n ih =>
      rw [fragments_succ hb]
      split
      · rename_i hend
        exact ⟨⟨after_le hb hend, trivial⟩, .last ptr⟩
      · rename_i hend
        obtain ⟨hfit, htail⟩ := ih (le_refl kBlockSize) ((turns_drop hend).trans_le (by omega))
        refine ⟨⟨(after_take hb hend _).le, ?_⟩, ?_⟩
        · rw [after_take hb hend]
          exact hfit
        · have hmid := Tail.middle (ptr.take (room b)) htail
          rw [List.take_append_drop] at hmid
          exact hmid

theorem fragments_whole {b : ℕ} (hb : b ≤ kBlockSize) (ptr : Bytes) :
    Fit b (fragments (ptr.length + 2) b true ptr) ∧
      Whole ptr (fragments (ptr.length + 2) b true ptr) := by
  rw [fragments_succ hb]
  split
  · rename_i hend
    exact ⟨⟨after_le hb hend, trivial⟩, .full ptr⟩
  · rename_i hend
    have hn : turns kBlockSize (ptr.drop (room b)) < ptr.length + 1 := by
      refine (turns_drop hend).trans_le ?_
      unfold turns
      split <;> omega
    obtain ⟨hfit, htail⟩ := fragments_tail (le_refl kBlockSize) hn
    refine ⟨⟨(after_take hb hend _).le, ?_⟩, ?_⟩
    · rw [after_take hb hend]
      exact hfit
    · have hfirst := Whole.first (ptr.take (room b)) htail
      rw [List.take_append_drop] at hfirst
      exact hfirst

/-! ## The reader on its way -/

/-- The reader is `b` bytes into a block and has `data` before it. -/
structure At (r : Reader) (b : ℕ) (data : Bytes) : Prop where
  buffer : r.buffer_ = data.take (kBlockSize - b)
  file : r.file = data.drop (kBlockSize - b)
  eof : r.eof_ = true → data.length ≤ kBlockSize - b
  more : r.eof_ = false → kBlockSize - b ≤ data.length

theorem at_new (file : Bytes) : At (.new file) kBlockSize file where
  buffer := rfl
  file := rfl
  eof h := by cases h
  more _ := Nat.zero_le _

namespace At

open Reader

variable {r : Reader} {b : ℕ} {data : Bytes}

theorem report (h : At r b data) (n : ℕ) (msg : String) : At (r.reportCorruption n msg) b data :=
  ⟨h.buffer, h.file, h.eof, h.more⟩

/-- The rest of the block is dropped. -/
theorem clear (h : At r b data) :
    At { r with buffer_ := [] } kBlockSize (data.drop (kBlockSize - b)) where
  buffer := by
    rw [Nat.sub_self]
    exact List.take_zero.symm
  file := by
    rw [Nat.sub_self]
    exact h.file
  eof he := by
    rw [List.length_drop]
    have := h.eof he
    omega
  more _ := by
    rw [Nat.sub_self]
    exact Nat.zero_le _

/-- `n` bytes of the block are taken. -/
theorem advance (h : At r b data) {n : ℕ} (hn : b + n ≤ kBlockSize) (hd : n ≤ data.length) :
    At { r with buffer_ := r.buffer_.drop n } (b + n) (data.drop n) where
  buffer := by
    dsimp only
    rw [h.buffer, List.drop_take, Nat.sub_sub]
  file := by
    dsimp only
    rw [h.file, List.drop_drop]
    congr 1
    omega
  eof he := by
    rw [List.length_drop]
    have := h.eof he
    omega
  more he := by
    rw [List.length_drop]
    have := h.more he
    omega

/-- A block is read when the last bytes of this one are too few for a header. -/
theorem refill_block (h : At r b data) (hb : kBlockSize - b < kHeaderSize)
    (hd : kHeaderSize ≤ data.length) : At r.refill 0 (data.drop (kBlockSize - b)) := by
  have heof : r.eof_ = false := by
    by_contra he
    have := h.eof (Bool.eq_true_of_not_eq_false he)
    omega
  have hlen : r.buffer_.length < kHeaderSize := by
    rw [h.buffer, List.length_take]
    omega
  rw [refill, if_pos ⟨hlen, heof⟩, h.file]
  refine ⟨rfl, rfl, fun he => ?_, fun he => ?_⟩
  · have := of_decide_eq_true he
    rw [List.length_take] at this
    omega
  · have := of_decide_eq_false he
    rw [List.length_take] at this
    omega

theorem refill_same (h : At r b data) (hb : kHeaderSize ≤ kBlockSize - b) : r.refill = r := by
  rw [refill, if_neg]
  rintro ⟨hlen, he⟩
  rw [h.buffer, List.length_take] at hlen
  have := h.more he
  omega

/-- A reader with less than a header before it is at the end of the file. -/
theorem parse_end (h : At r b data) (hd : data.length < kHeaderSize) :
    ∃ r', r.readPhysicalRecord = (r', kEof, []) := by
  have hlen : r.refill.buffer_.length < kHeaderSize := by
    rw [refill]
    split
    · dsimp only
      rw [h.file, List.length_take, List.length_drop]
      omega
    · rw [h.buffer, List.length_take]
      omega
  rw [readPhysicalRecord, parse, if_pos hlen]
  split <;> exact ⟨_, rfl⟩

/-- The two bytes of a length. -/
theorem length_bytes {n : ℕ} (h : n < 2 ^ 16) :
    ((UInt8.ofNat (n &&& 0xff)).toNat &&& 0xff)
      ||| (((UInt8.ofNat (n >>> 8)).toNat &&& 0xff) <<< 8) = n := by
  have hand : ∀ m, m &&& 0xff = m % 256 := fun m => Nat.and_two_pow_sub_one_eq_mod m 8
  rw [UInt8.toNat_ofNat', UInt8.toNat_ofNat', hand, hand, hand, Nat.shiftRight_eq_div_pow,
    Nat.or_comm, Nat.shiftLeft_eq, Nat.mul_comm, ← Nat.two_pow_add_eq_or_of_lt (by omega)]
  omega

/-- The fields of a header, whatever is behind it. -/
theorem header_fields (t : RecordType) {p : Bytes} (hp : p.length < 2 ^ 16) (rest : Bytes) :
    headerLength (header t p ++ rest) = p.length ∧ headerType (header t p ++ rest) = t.code.toNat ∧
      expectedCrc (header t p ++ rest) = Crc32c.value 0 (t.code :: p) := by
  refine ⟨length_bytes hp, ?_, ?_⟩
  · cases t <;> rfl
  · rw [expectedCrc, header, List.append_assoc, decodeFixed32_encode, Crc32c.unmask_mask,
      Crc32c.value, Crc32c.extend_append 0 0 0, List.singleton_append, Crc32c.value]

theorem header_drop (t : RecordType) (p rest : Bytes) :
    (header t p ++ rest).drop 6 = t.code :: rest := rfl

/-- What the reader makes of a header with anything behind it: the fragment, if there are bytes
enough in the block and they have the checksum of the header. -/
theorem parse_header {t : RecordType} {p body : Bytes} (h : At r b (header t p ++ body))
    (hb : kHeaderSize ≤ kBlockSize - b) (ht : t ≠ .kZeroType) (hp : p.length < 2 ^ 16) :
    r.readPhysicalRecord =
      if kBlockSize - b < kHeaderSize + p.length ∨ body.length < p.length then
        (r.dropBuffer "bad record length", kBadRecord, [])
      else if Crc32c.value 0 (t.code :: body.take p.length) ≠ Crc32c.value 0 (t.code :: p) then
        (r.dropBuffer "checksum mismatch", kBadRecord, [])
      else ({ r with buffer_ := r.buffer_.drop (kHeaderSize + p.length) },
        t.code.toNat, body.take p.length) := by
  have hbuf : r.buffer_ = header t p ++ body.take (kBlockSize - b - kHeaderSize) := by
    rw [h.buffer, List.take_append, length_header,
      List.take_of_length_le (by rw [length_header]; exact hb)]
  have hlen : r.buffer_.length = min (kBlockSize - b) (kHeaderSize + body.length) := by
    rw [hbuf, List.length_append, length_header, List.length_take]
    omega
  obtain ⟨hlength, htype, hexp⟩ :=
    header_fields t hp (body.take (kBlockSize - b - kHeaderSize))
  have hzero : ¬ (t.code.toNat = 0 ∧ p.length = 0) := by
    rintro ⟨hz, -⟩
    cases t <;> first | exact ht rfl | cases hz
  rw [← hbuf] at hlength htype hexp
  rw [readPhysicalRecord, h.refill_same hb, parse, if_neg (by omega), hlength, htype, hexp]
  dsimp only
  rw [if_neg hzero]
  by_cases hroom : kBlockSize - b < kHeaderSize + p.length ∨ body.length < p.length
  · rw [if_pos (show r.buffer_.length < kHeaderSize + p.length by omega), if_pos hroom]
  · have hbody : (body.take (kBlockSize - b - kHeaderSize)).take p.length = body.take p.length := by
      rw [List.take_take, Nat.min_eq_left (by omega)]
    have hact : actualCrc r.buffer_ p.length = Crc32c.value 0 (t.code :: body.take p.length) := by
      rw [actualCrc, hbuf, header_drop, Nat.add_comm, List.take_succ_cons, hbody]
    have hpay : (r.buffer_.drop kHeaderSize).take p.length = body.take p.length := by
      rw [hbuf, List.drop_left' (length_header t p), hbody]
    rw [if_neg (show ¬ r.buffer_.length < kHeaderSize + p.length by omega), if_neg hroom, hact,
      hpay]

/-- A whole physical record is read. -/
theorem parse_physical {f : Frag} {rest : Bytes} (h : At r b (physical f ++ rest))
    (hb : b + kHeaderSize + f.2.length ≤ kBlockSize) (ht : f.1 ≠ .kZeroType) :
    ∃ r', r.readPhysicalRecord = (r', f.1.code.toNat, f.2) ∧
      At r' (b + kHeaderSize + f.2.length) rest := by
  have hK : kBlockSize = 32768 := rfl
  rw [physical, List.append_assoc] at h
  have hread := h.parse_header (by omega) ht (by omega)
  have hlen : ¬ (f.2 ++ rest).length < f.2.length := by
    rw [List.length_append]
    omega
  rw [if_neg (by omega), List.take_left, if_neg (not_not.mpr rfl)] at hread
  refine ⟨_, hread, ?_⟩
  have hadv := h.advance (n := kHeaderSize + f.2.length) (by omega) (by
    rw [List.length_append, List.length_append, length_header]
    omega)
  rw [← List.append_assoc, List.drop_left' (by rw [List.length_append, length_header]),
    ← Nat.add_assoc] at hadv
  exact hadv

/-- So is one with its padding. -/
theorem parse_piece {f : Frag} {rest : Bytes}
    (h : At r b (pad b ++ physical f ++ rest)) (hfit : after b f ≤ kBlockSize)
    (ht : f.1 ≠ .kZeroType) :
    ∃ r', r.readPhysicalRecord = (r', f.1.code.toNat, f.2) ∧ At r' (after b f) rest := by
  rw [after] at hfit ⊢
  by_cases hpad : kBlockSize - b < kHeaderSize
  · have hp : place b = 0 := if_pos hpad
    have hz : pad b = List.replicate (kBlockSize - b) 0 := if_pos hpad
    rw [hp] at hfit ⊢
    have hr := h.refill_block hpad (by
      rw [List.length_append, List.length_append, length_physical]
      omega)
    rw [List.append_assoc, List.drop_left' (by rw [hz, List.length_replicate])] at hr
    have hsame : r.refill.refill = r.refill := hr.refill_same (by decide)
    obtain ⟨r', hread, hat⟩ := hr.parse_physical hfit ht
    rw [readPhysicalRecord, hsame] at hread
    exact ⟨r', hread, hat⟩
  · have hp : place b = b := if_neg hpad
    have hz : pad b = [] := if_neg hpad
    rw [hp] at hfit ⊢
    rw [hz, List.nil_append] at h
    exact h.parse_physical hfit ht

end At

/-! ## Records read -/

open Reader

theorem readRecordLoop_tail {q : Bytes} {fs : List Frag} (ht : Tail q fs) {n b : ℕ} {r : Reader}
    {scratch rest : Bytes} (hn : fs.length ≤ n) (h : At r b (layout b fs ++ rest))
    (hfit : Fit b fs) :
    ∃ r', readRecordLoop n true scratch r = (r', some (scratch ++ q)) ∧
      At r' (endOff b fs) rest := by
  induction ht generalizing n b r scratch with
  | last p =>
      cases n with
      | zero => exact absurd hn (Nat.not_succ_le_zero _)
      | succ n =>
          rw [layout, layout, List.append_nil] at h
          obtain ⟨r', hread, hat⟩ := h.parse_piece hfit.1 nofun
          refine ⟨r', ?_, hat⟩
          rw [readRecordLoop, hread]
          rfl
  | middle p htail ih =>
      cases n with
      | zero => exact absurd hn (Nat.not_succ_le_zero _)
      | succ n =>
          rw [layout, List.append_assoc] at h
          obtain ⟨r', hread, hat⟩ := h.parse_piece hfit.1 nofun
          obtain ⟨r'', hloop, hat'⟩ :=
            ih (Nat.le_of_succ_le_succ hn) hat hfit.2
          refine ⟨r'', ?_, hat'⟩
          rw [List.append_assoc] at hloop
          rw [readRecordLoop, hread]
          exact hloop

/-- The physical records of a record are one `ReadRecord`. -/
theorem readRecordLoop_whole {p : Bytes} {fs : List Frag} (hw : Whole p fs) {n b : ℕ} {r : Reader}
    {scratch rest : Bytes} (hn : fs.length ≤ n) (h : At r b (layout b fs ++ rest))
    (hfit : Fit b fs) :
    ∃ r', readRecordLoop n false scratch r = (r', some p) ∧ At r' (endOff b fs) rest := by
  cases n with
  | zero => cases hw <;> exact absurd hn (Nat.not_succ_le_zero _)
  | succ n =>
      cases hw with
      | full =>
          rw [layout, layout, List.append_nil] at h
          obtain ⟨r', hread, hat⟩ := h.parse_piece hfit.1 nofun
          refine ⟨r', ?_, hat⟩
          rw [readRecordLoop, hread]
          rfl
      | first p htail =>
          rw [layout, List.append_assoc] at h
          obtain ⟨r', hread, hat⟩ := h.parse_piece hfit.1 nofun
          obtain ⟨r'', hloop, hat'⟩ :=
            readRecordLoop_tail htail (Nat.le_of_succ_le_succ hn) hat hfit.2
          refine ⟨r'', ?_, hat'⟩
          rw [readRecordLoop, hread]
          exact hloop

/-! ## Behind the cut -/

/-- From here the reader returns no record any more, in whatever state it is. -/
def Dead (b : ℕ) (data : Bytes) : Prop :=
  ∀ r, At r b data → ∀ n in_fragmented_record scratch,
    (readRecordLoop n in_fragmented_record scratch r).2 = none

theorem dead_end {b : ℕ} {data : Bytes} (h : data.length < kHeaderSize) : Dead b data := by
  intro r hr n fragmented scratch
  cases n with
  | zero => rfl
  | succ n =>
      obtain ⟨r', hread⟩ := hr.parse_end h
      rw [readRecordLoop, hread]
      rfl

/-- A bad record, and nothing behind it. -/
theorem dead_of_bad {b' : ℕ} {data' : Bytes} {r r' : Reader} {fragment : Bytes}
    (hread : r.readPhysicalRecord = (r', kBadRecord, fragment)) (hat : At r' b' data')
    (h : Dead b' data') (n : ℕ) (in_fragmented_record : Bool) (scratch : Bytes) :
    (readRecordLoop n in_fragmented_record scratch r).2 = none := by
  cases n with
  | zero => rfl
  | succ n =>
      rw [readRecordLoop, hread]
      show (if in_fragmented_record = true then _ else _ : Reader × Option Bytes).2 = none
      split
      · exact h _ (hat.report _ _) n _ _
      · exact h _ hat n _ _

/-- A record of type zero, and nothing behind it. -/
theorem dead_of_zero {b' : ℕ} {data' : Bytes} {r r' : Reader} {fragment : Bytes}
    (hread : r.readPhysicalRecord = (r', 0, fragment)) (hat : At r' b' data')
    (h : Dead b' data') (n : ℕ) (in_fragmented_record : Bool) (scratch : Bytes) :
    (readRecordLoop n in_fragmented_record scratch r).2 = none := by
  cases n with
  | zero => rfl
  | succ n =>
      rw [readRecordLoop, hread]
      exact h _ (hat.report _ _) n _ _

/-- The last bytes of a block, too few for a header, are stepped over. -/
theorem dead_refill {b : ℕ} {data : Bytes} (hb : kBlockSize - b < kHeaderSize)
    (h : Dead 0 (data.drop (kBlockSize - b))) : Dead b data := by
  by_cases hd : data.length < kHeaderSize
  · exact dead_end hd
  intro r hr n fragmented scratch
  have hat := hr.refill_block hb (by omega)
  have hread : r.readPhysicalRecord = r.refill.readPhysicalRecord := by
    rw [readPhysicalRecord, readPhysicalRecord, hat.refill_same (by decide)]
  have hdead := h _ hat n fragmented scratch
  cases n with
  | zero => rfl
  | succ n =>
      rw [readRecordLoop] at hdead ⊢
      rw [hread]
      exact hdead

/-- A zero for the type leads nowhere, whatever length and checksum are beside it. -/
theorem dead_of_type {b : ℕ} {data : Bytes} (hb : kHeaderSize ≤ kBlockSize - b)
    (htype : data.getD 6 0 = 0)
    (h : ∀ b' ≤ kBlockSize, ∀ n, kHeaderSize ≤ n → n ≤ data.length → Dead b' (data.drop n)) :
    Dead b data := by
  by_cases hd : data.length < kHeaderSize
  · exact dead_end hd
  intro r hr n fragmented scratch
  have hK : kBlockSize = 32768 := rfl
  have hH : kHeaderSize = 7 := rfl
  have hlen : r.buffer_.length = min (kBlockSize - b) data.length := by
    rw [hr.buffer, List.length_take]
  have hhead : headerType r.buffer_ = 0 := by
    rw [headerType, hr.buffer, List.getD_eq_getElem?_getD, List.getElem?_take_of_lt (by omega),
      ← List.getD_eq_getElem?_getD, htype]
    rfl
  -- the rest of the block is dropped
  have hclear : Dead kBlockSize (data.drop (kBlockSize - b)) := by
    by_cases hle : kBlockSize - b ≤ data.length
    · exact h _ (le_refl _) _ hb hle
    · rw [List.drop_of_length_le (by omega)]
      exact dead_end (by decide)
  have hread : r.readPhysicalRecord = r.parse := by rw [readPhysicalRecord, hr.refill_same hb]
  rw [parse, if_neg (by omega), hhead] at hread
  dsimp only at hread
  split at hread
  · exact dead_of_bad hread (hr.clear.report _ _) hclear n fragmented scratch
  · split at hread
    · exact dead_of_bad hread hr.clear hclear n fragmented scratch
    · split at hread
      · exact dead_of_bad hread (hr.clear.report _ _) hclear n fragmented scratch
      · have hadv := hr.advance (n := kHeaderSize + headerLength r.buffer_) (by omega) (by omega)
        exact dead_of_zero hread hadv (h _ (by omega) _ (by omega) (by omega)) n fragmented scratch

theorem dead_zeros (m : ℕ) {b : ℕ} (hb : b ≤ kBlockSize) : Dead b (List.replicate m 0) := by
  induction m using Nat.strong_induction_on generalizing b with
  | _ m ih =>
      by_cases hm : m < kHeaderSize
      · exact dead_end (by rw [List.length_replicate]; exact hm)
      have hH : kHeaderSize = 7 := rfl
      -- a whole header of zeros, in this block
      have hin : ∀ k ≤ m, ∀ b, kHeaderSize ≤ kBlockSize - b → Dead b (List.replicate k 0) := by
        intro k hk b hb
        refine dead_of_type hb ?_ fun b' hb' n hn hle => ?_
        · rw [List.getD_eq_getElem?_getD, List.getElem?_replicate]
          split <;> rfl
        · rw [List.length_replicate] at hle
          rw [List.drop_replicate]
          exact ih _ (by omega) hb'
      by_cases hpad : kBlockSize - b < kHeaderSize
      · refine dead_refill hpad ?_
        rw [List.drop_replicate]
        exact hin _ (Nat.sub_le _ _) 0 (by decide)
      · exact hin m (le_refl m) b (by omega)

/-! ## At the cut -/

/-- The checksum tells the record from itself with its end zeroed. -/
def Sees (f : Frag) : Prop :=
  ∀ j < f.2.length, f.2.take j ++ List.replicate (f.2.length - j) 0 ≠ f.2 →
    Crc32c.value 0 (f.1.code :: (f.2.take j ++ List.replicate (f.2.length - j) 0))
      ≠ Crc32c.value 0 (f.1.code :: f.2)

/-- A physical record cut short, and zeros for what is missing: the reader finds nothing any
more, or the record was zeros from the cut on, and nothing behind it. -/
theorem torn_physical {f : Frag} {b n k : ℕ} (hb : b + kHeaderSize + f.2.length ≤ kBlockSize)
    (ht : f.1 ≠ .kZeroType) (hn : n < (physical f).length) (hsees : k = 0 ∨ Sees f) :
    Dead b ((physical f).take n ++ List.replicate k 0) ∨
      ∃ k', (physical f).take n ++ List.replicate k 0 = physical f ++ List.replicate k' 0 := by
  have hK : kBlockSize = 32768 := rfl
  have hH : kHeaderSize = 7 := rfl
  rw [length_physical] at hn
  by_cases hhead : n < kHeaderSize
  · -- the type has not been written
    have hlen : ((physical f).take n).length = n := by
      rw [List.length_take, length_physical]
      omega
    refine Or.inl (dead_of_type (by omega) ?_ fun b' hb' m hm hle => ?_)
    · rw [List.getD_eq_getElem?_getD, List.getElem?_append_right (by omega),
        List.getElem?_replicate]
      split <;> rfl
    · rw [List.drop_append, List.drop_of_length_le (by omega), List.nil_append,
        List.drop_replicate]
      exact dead_zeros _ hb'
  · obtain ⟨j, rfl⟩ : ∃ j, n = kHeaderSize + j := ⟨n - kHeaderSize, by omega⟩
    have hj : j < f.2.length := by omega
    have hcut : (physical f).take (kHeaderSize + j) = header f.1 f.2 ++ f.2.take j := by
      rw [physical, List.take_append, length_header, List.take_of_length_le (by
        rw [length_header]
        omega), Nat.add_sub_cancel_left]
    have hdata : (physical f).take (kHeaderSize + j) ++ List.replicate k 0
        = header f.1 f.2 ++ (f.2.take j ++ List.replicate k 0) := by
      rw [hcut, List.append_assoc]
    have hbody : (f.2.take j ++ List.replicate k 0).length = j + k := by
      rw [List.length_append, List.length_replicate, List.length_take]
      omega
    -- what is behind the block is zeros
    have hclear : ∀ r, At r b (header f.1 f.2 ++ (f.2.take j ++ List.replicate k 0)) → ∀ msg,
        At (r.dropBuffer msg) kBlockSize
          (List.replicate (k - (kBlockSize - b - kHeaderSize - j)) 0) := by
      intro r hr msg
      have hat := hr.clear.report r.buffer_.length msg
      rw [List.drop_append, List.drop_of_length_le (by rw [length_header]; omega), List.nil_append,
        length_header, List.drop_append, List.drop_of_length_le (by
          rw [List.length_take]
          omega), List.nil_append, List.length_take, Nat.min_eq_left hj.le,
        List.drop_replicate] at hat
      exact hat
    rw [hdata]
    by_cases hfew : j + k < f.2.length
    · refine Or.inl fun r hr n fragmented scratch => ?_
      have hread := hr.parse_header (by omega) ht (by omega)
      rw [if_pos (Or.inr (by omega))] at hread
      exact dead_of_bad hread (hclear r hr _) (dead_zeros _ (le_refl _)) n fragmented scratch
    · have htake : (f.2.take j ++ List.replicate k 0).take f.2.length
          = f.2.take j ++ List.replicate (f.2.length - j) 0 := by
        rw [List.take_append, List.take_take, List.length_take, List.take_replicate]
        congr 2 <;> omega
      by_cases hsame : f.2.take j ++ List.replicate (f.2.length - j) 0 = f.2
      · refine Or.inr ⟨k - (f.2.length - j), ?_⟩
        have hsplit : k = (f.2.length - j) + (k - (f.2.length - j)) := by omega
        conv_lhs => rw [hsplit, List.replicate_add, ← List.append_assoc (f.2.take j), hsame]
        rw [physical, List.append_assoc]
      · refine Or.inl fun r hr n fragmented scratch => ?_
        have hsum := (hsees.resolve_left (by omega)) j hj hsame
        have hread := hr.parse_header (by omega) ht (by omega)
        rw [if_neg (by omega), htake, if_pos hsum] at hread
        exact dead_of_bad hread (hclear r hr _) (dead_zeros _ (le_refl _)) n fragmented scratch

/-- A piece cut short, padding and all. -/
theorem torn_piece {f : Frag} {b n k : ℕ} (hb : b ≤ kBlockSize) (hfit : after b f ≤ kBlockSize)
    (ht : f.1 ≠ .kZeroType) (hn : n < (pad b ++ physical f).length) (hsees : k = 0 ∨ Sees f) :
    Dead b ((pad b ++ physical f).take n ++ List.replicate k 0) ∨
      ∃ k', (pad b ++ physical f).take n ++ List.replicate k 0
        = pad b ++ physical f ++ List.replicate k' 0 := by
  rw [after] at hfit
  by_cases hpad : kBlockSize - b < kHeaderSize
  · have hp : place b = 0 := if_pos hpad
    have hz : pad b = List.replicate (kBlockSize - b) 0 := if_pos hpad
    rw [hp] at hfit
    rw [List.length_append, hz, List.length_replicate] at hn
    by_cases hin : n < kBlockSize - b
    · -- the cut is in the padding
      refine Or.inl ?_
      rw [hz, List.take_append_of_le_length (by rw [List.length_replicate]; omega),
        List.take_replicate, ← List.replicate_add]
      exact dead_zeros _ hb
    · obtain ⟨m, rfl⟩ : ∃ m, n = kBlockSize - b + m := ⟨n - (kBlockSize - b), by omega⟩
      have hcut : (pad b ++ physical f).take (kBlockSize - b + m) ++ List.replicate k 0
          = pad b ++ ((physical f).take m ++ List.replicate k 0) := by
        rw [List.take_append, List.take_of_length_le (by rw [hz, List.length_replicate]; omega), hz,
          List.length_replicate, Nat.add_sub_cancel_left, List.append_assoc]
      rw [hcut]
      refine (torn_physical (n := m) hfit ht (by omega) hsees).imp (fun hdead => ?_) fun hfull => ?_
      · refine dead_refill hpad ?_
        rw [List.drop_left' (by rw [hz, List.length_replicate])]
        exact hdead
      · obtain ⟨k', he⟩ := hfull
        exact ⟨k', by rw [he, List.append_assoc]⟩
  · have hp : place b = b := if_neg hpad
    have hz : pad b = [] := if_neg hpad
    rw [hp] at hfit
    rw [hz, List.nil_append] at hn ⊢
    exact torn_physical hfit ht hn hsees

theorem layout_append (b : ℕ) (fs gs : List Frag) :
    layout b (fs ++ gs) = layout b fs ++ layout (endOff b fs) gs := by
  induction fs generalizing b with
  | nil => rfl
  | cons f fs ih => rw [List.cons_append, layout, layout, ih, endOff, ← List.append_assoc]

theorem endOff_append (b : ℕ) (fs gs : List Frag) :
    endOff b (fs ++ gs) = endOff (endOff b fs) gs := by
  induction fs generalizing b with
  | nil => rfl
  | cons f fs ih => rw [List.cons_append, endOff, endOff, ih]

theorem fit_append {b : ℕ} {fs gs : List Frag} (hf : Fit b fs) (hg : Fit (endOff b fs) gs) :
    Fit b (fs ++ gs) := by
  induction fs generalizing b with
  | nil => exact hg
  | cons f fs ih => exact ⟨hf.1, ih hf.2 hg⟩

theorem endOff_le {b : ℕ} (hb : b ≤ kBlockSize) {fs : List Frag} (h : Fit b fs) :
    endOff b fs ≤ kBlockSize := by
  induction fs generalizing b with
  | nil => exact hb
  | cons f fs ih => exact ih h.1 h.2

theorem length_le_layout (b : ℕ) (fs : List Frag) : fs.length ≤ (layout b fs).length := by
  induction fs generalizing b with
  | nil => exact Nat.zero_le _
  | cons f fs ih =>
      have := ih (after b f)
      have hH : kHeaderSize = 7 := rfl
      rw [layout, List.length_append, List.length_append, length_physical, List.length_cons]
      omega

/-- A log cut anywhere and filled up with zeros is the first of its physical records, and
something in which the reader finds nothing. -/
theorem torn_layout {fs : List Frag} {b k : ℕ} (n : ℕ) (hb : b ≤ kBlockSize) (hfit : Fit b fs)
    (ht : ∀ f ∈ fs, f.1 ≠ .kZeroType) (hsees : k = 0 ∨ ∀ f ∈ fs, Sees f) :
    ∃ m rest, (layout b fs).take n ++ List.replicate k 0 = layout b (fs.take m) ++ rest ∧
      Dead (endOff b (fs.take m)) rest ∧
      ∀ i ≤ fs.length, (layout b (fs.take i)).length ≤ n → i ≤ m := by
  induction fs generalizing b n with
  | nil =>
      refine ⟨0, List.replicate k 0, ?_, dead_zeros k hb, fun i hi _ => hi⟩
      rw [layout, List.take_nil, List.take_nil]
      rfl
  | cons f fs ih =>
      have hseen : k = 0 ∨ Sees f := hsees.imp_right fun h => h f List.mem_cons_self
      by_cases hn : n < (pad b ++ physical f).length
      · have hcut : (layout b (f :: fs)).take n = (pad b ++ physical f).take n := by
          rw [layout, List.take_append_of_le_length hn.le]
        -- a prefix that ends before the cut is empty
        have hnone : ∀ i, (layout b ((f :: fs).take i)).length ≤ n → i = 0 := by
          intro i hi
          cases i with
          | zero => rfl
          | succ i =>
              rw [List.take_succ_cons, layout, List.length_append] at hi
              omega
        rw [hcut]
        rcases torn_piece hb hfit.1 (ht f List.mem_cons_self) hn hseen with hdead | ⟨k', he⟩
        · exact ⟨0, _, rfl, hdead, fun i _ hi => (hnone i hi).le⟩
        · refine ⟨1, List.replicate k' 0, ?_, dead_zeros k' hfit.1,
            fun i _ hi => (hnone i hi).trans_le (Nat.zero_le 1)⟩
          rw [he, List.take_succ_cons, List.take_zero, layout, layout, List.append_nil]
      · obtain ⟨m, rest, hsplit, hdead, hmost⟩ :=
          ih (n - (pad b ++ physical f).length) hfit.1 hfit.2
            (fun g hg => ht g (List.mem_cons_of_mem f hg))
            (hsees.imp_right fun h g hg => h g (List.mem_cons_of_mem f hg))
        refine ⟨m + 1, rest, ?_, hdead, fun i hi hle => ?_⟩
        · rw [layout, List.take_append, List.take_of_length_le (by omega), List.append_assoc,
            hsplit, List.take_succ_cons, layout, List.append_assoc (pad b ++ physical f)]
        · cases i with
          | zero => exact Nat.zero_le _
          | succ i =>
              rw [List.take_succ_cons, layout, List.length_append] at hle
              exact Nat.succ_le_succ (hmost i (Nat.le_of_succ_le_succ hi) (by omega))

/-! ## Records behind one another -/

/-- The physical records of some records. -/
def logFragments : ℕ → List Bytes → List Frag
  | _, [] => []
  | b, p :: ps =>
      fragments (p.length + 2) b true p ++
        logFragments (endOff b (fragments (p.length + 2) b true p)) ps

theorem foldl_addRecord (w : Writer) (ps : List Bytes) :
    ps.foldl Writer.addRecord w
      = ⟨w.dest_ ++ layout w.block_offset_ (logFragments w.block_offset_ ps),
        endOff w.block_offset_ (logFragments w.block_offset_ ps)⟩ := by
  induction ps generalizing w with
  | nil =>
      rw [List.foldl_nil, logFragments, layout, endOff, List.append_nil]
  | cons p ps ih =>
      rw [List.foldl_cons, ih, Writer.addRecord, addLoop_eq]
      dsimp only
      rw [logFragments, layout_append, endOff_append, List.append_assoc]

theorem writeLog_eq (ps : List Bytes) : writeLog ps = layout 0 (logFragments 0 ps) := by
  rw [writeLog, foldl_addRecord]
  rfl

theorem Tail.types {q : Bytes} {fs : List Frag} (h : Tail q fs) : ∀ f ∈ fs, f.1 ≠ .kZeroType := by
  induction h with
  | last p => exact fun f hf => List.mem_singleton.mp hf ▸ nofun
  | middle p _ ih =>
      intro f hf
      rcases List.mem_cons.mp hf with rfl | hf
      · exact nofun
      · exact ih f hf

theorem Whole.types {p : Bytes} {fs : List Frag} (h : Whole p fs) : ∀ f ∈ fs, f.1 ≠ .kZeroType := by
  cases h with
  | full => exact fun f hf => List.mem_singleton.mp hf ▸ nofun
  | first p htail =>
      intro f hf
      rcases List.mem_cons.mp hf with rfl | hf
      · exact nofun
      · exact htail.types f hf

theorem Whole.pos {p : Bytes} {fs : List Frag} (h : Whole p fs) : 0 < fs.length := by
  cases h <;> exact Nat.succ_pos _

theorem logFragments_fit {b : ℕ} (hb : b ≤ kBlockSize) (ps : List Bytes) :
    Fit b (logFragments b ps) ∧ ∀ f ∈ logFragments b ps, f.1 ≠ .kZeroType := by
  induction ps generalizing b with
  | nil => exact ⟨trivial, fun f hf => by cases hf⟩
  | cons p ps ih =>
      obtain ⟨hfit, hwhole⟩ := fragments_whole hb p
      obtain ⟨hfit', htypes⟩ := ih (endOff_le hb hfit)
      refine ⟨fit_append hfit hfit', fun f hf => ?_⟩
      rcases List.mem_append.mp hf with hf | hf
      · exact hwhole.types f hf
      · exact htypes f hf

/-- A record that is not there to its end is not read. -/
theorem readRecordLoop_tail_cut {q : Bytes} {fs : List Frag} (ht : Tail q fs) {m b : ℕ}
    {r : Reader} {rest : Bytes} (hm : m < fs.length) (h : At r b (layout b (fs.take m) ++ rest))
    (hfit : Fit b fs) (hdead : Dead (endOff b (fs.take m)) rest) (n : ℕ) (scratch : Bytes) :
    (readRecordLoop n true scratch r).2 = none := by
  induction ht generalizing m b r n scratch with
  | last p =>
      obtain rfl : m = 0 := Nat.lt_one_iff.mp hm
      exact hdead r h n true scratch
  | middle p _ ih =>
      cases m with
      | zero => exact hdead r h n true scratch
      | succ m =>
          rw [List.take_succ_cons] at h hdead
          rw [layout, List.append_assoc] at h
          obtain ⟨r', hread, hat⟩ := h.parse_piece hfit.1 nofun
          cases n with
          | zero => rfl
          | succ n =>
              rw [readRecordLoop, hread]
              exact ih (Nat.lt_of_succ_lt_succ hm) hat hfit.2 hdead n _

theorem readRecordLoop_whole_cut {p : Bytes} {fs : List Frag} (hw : Whole p fs) {m b : ℕ}
    {r : Reader} {rest : Bytes} (hm : m < fs.length) (h : At r b (layout b (fs.take m) ++ rest))
    (hfit : Fit b fs) (hdead : Dead (endOff b (fs.take m)) rest) (n : ℕ) (scratch : Bytes) :
    (readRecordLoop n false scratch r).2 = none := by
  cases m with
  | zero => exact hdead r h n false scratch
  | succ m =>
      cases hw with
      | full => exact absurd (Nat.lt_of_succ_lt_succ hm) (Nat.not_lt_zero m)
      | first p htail =>
          rw [List.take_succ_cons] at h hdead
          rw [layout, List.append_assoc] at h
          obtain ⟨r', hread, hat⟩ := h.parse_piece hfit.1 nofun
          cases n with
          | zero => rfl
          | succ n =>
              rw [readRecordLoop, hread]
              exact readRecordLoop_tail_cut htail (Nat.lt_of_succ_lt_succ hm) hat hfit.2 hdead n _

theorem At.length {r : Reader} {b : ℕ} {data : Bytes} (h : At r b data) :
    r.file.length + r.buffer_.length = data.length := by
  rw [h.file, h.buffer, List.length_drop, List.length_take]
  omega

theorem readAll_none {r : Reader} (h : r.readRecord.2 = none) (n : ℕ) : readAll n r = [] := by
  cases n with
  | zero => rfl
  | succ n =>
      rw [readAll]
      split
      · rename_i hr
        rw [hr] at h
        cases h
      · rfl

/-- Of the first physical records of a log, the records that are there to their end are read. -/
theorem readAll_take {ps : List Bytes} {b m : ℕ} (hb : b ≤ kBlockSize) {rest : Bytes}
    (hdead : Dead (endOff b ((logFragments b ps).take m)) rest) :
    ∃ j ≤ ps.length, (logFragments b (ps.take j)) <+: (logFragments b ps).take m ∧
      (∀ i ≤ ps.length, (logFragments b (ps.take i)).length ≤ m → i ≤ j) ∧
      ∀ r, At r b (layout b ((logFragments b ps).take m) ++ rest) →
        ∀ n, (layout b ((logFragments b ps).take m)).length < n → readAll n r = ps.take j := by
  induction ps generalizing b m with
  | nil =>
      refine ⟨0, le_refl 0, List.nil_prefix, fun i hi _ => hi, fun r hr n _ => ?_⟩
      rw [logFragments, List.take_nil] at hr hdead
      exact readAll_none (hdead r hr _ false []) n
  | cons p ps ih =>
      obtain ⟨hfit, hwhole⟩ := fragments_whole hb p
      rw [logFragments] at hdead ⊢
      by_cases hm : m < (fragments (p.length + 2) b true p).length
      · -- the first record is cut
        rw [List.take_append_of_le_length hm.le] at hdead ⊢
        refine ⟨0, Nat.zero_le _, List.nil_prefix, fun i hi hlen => ?_, fun r hr n _ => ?_⟩
        · cases i with
          | zero => exact le_refl 0
          | succ i =>
              rw [List.take_succ_cons, logFragments, List.length_append] at hlen
              omega
        · exact readAll_none (readRecordLoop_whole_cut hwhole hm hr hfit hdead _ []) n
      · have htake : (fragments (p.length + 2) b true p ++
            logFragments (endOff b (fragments (p.length + 2) b true p)) ps).take m
              = fragments (p.length + 2) b true p ++
                (logFragments (endOff b (fragments (p.length + 2) b true p)) ps).take
                  (m - (fragments (p.length + 2) b true p).length) := by
          rw [List.take_append, List.take_of_length_le (by omega)]
        rw [htake] at hdead ⊢
        rw [endOff_append] at hdead
        obtain ⟨j, hj, hpre, hmost, hread⟩ := ih (endOff_le hb hfit) hdead
        refine ⟨j + 1, Nat.succ_le_succ hj, ?_, fun i hi hlen => ?_, fun r hr n hn => ?_⟩
        · rw [List.take_succ_cons, logFragments]
          exact (List.prefix_append_right_inj _).mpr hpre
        · cases i with
          | zero => exact Nat.zero_le _
          | succ i =>
              rw [List.take_succ_cons, logFragments, List.length_append] at hlen
              exact Nat.succ_le_succ (hmost i (Nat.le_of_succ_le_succ hi) (by omega))
        · have hlen := length_le_layout b (fragments (p.length + 2) b true p)
          rw [layout_append, List.append_assoc] at hr
          rw [layout_append, List.length_append] at hn
          have hfuel := hr.length
          rw [List.length_append] at hfuel
          have hpos := hwhole.pos
          obtain ⟨r', hrec, hat⟩ := readRecordLoop_whole hwhole
            (show _ ≤ r.file.length + r.buffer_.length + 1 by omega) hr hfit
          cases n with
          | zero => omega
          | succ n =>
              rw [readAll, readRecord, hrec, List.take_succ_cons]
              exact congrArg (p :: ·) (hread r' hat n (by omega))

/-! ## The cut log -/

/-- At the end of a block the reader is where the writer is at the start of the next. -/
theorem layout_block (fs : List Frag) : layout kBlockSize fs = layout 0 fs := by
  cases fs <;> rfl

theorem endOff_block {fs : List Frag} (h : 0 < fs.length) : endOff kBlockSize fs = endOff 0 fs := by
  cases fs with
  | nil => cases h
  | cons f fs => rfl

theorem logFragments_block (ps : List Bytes) :
    logFragments kBlockSize ps = logFragments 0 ps := by
  cases ps with
  | nil => rfl
  | cons p ps =>
      have h : fragments (p.length + 2) kBlockSize true p = fragments (p.length + 2) 0 true p := rfl
      rw [logFragments, logFragments, h, endOff_block (fragments_whole (Nat.zero_le _) p).2.pos]

theorem logFragments_take (b : ℕ) (ps : List Bytes) (i : ℕ) :
    logFragments b (ps.take i) <+: logFragments b ps := by
  induction ps generalizing b i with
  | nil => cases i <;> exact List.prefix_refl _
  | cons p ps ih =>
      cases i with
      | zero => exact List.nil_prefix
      | succ i =>
          rw [List.take_succ_cons, logFragments, logFragments]
          exact (List.prefix_append_right_inj _).mpr (ih _ i)

/-- Of a log that was cut after `n` bytes and has `k` zeros behind, the first records are read:
all that lie before the cut, and none whose bytes are not there. -/
theorem readLog_torn (ps : List Bytes) (n k : ℕ)
    (hsees : k = 0 ∨ ∀ f ∈ logFragments 0 ps, Sees f) :
    ∃ j ≤ ps.length, readLog ((writeLog ps).take n ++ List.replicate k 0) = ps.take j ∧
      (∀ i ≤ ps.length, (writeLog (ps.take i)).length ≤ n → i ≤ j) ∧
      writeLog (ps.take j) <+: (writeLog ps).take n ++ List.replicate k 0 := by
  have hwrite : ∀ ps, writeLog ps = layout kBlockSize (logFragments kBlockSize ps) := by
    intro ps
    rw [writeLog_eq, layout_block, logFragments_block]
  obtain ⟨hfit, htypes⟩ := logFragments_fit (le_refl kBlockSize) ps
  rw [← logFragments_block] at hsees
  obtain ⟨m, rest, hsplit, hdead, hmost⟩ :=
    torn_layout n (le_refl kBlockSize) hfit htypes hsees
  obtain ⟨j, hj, hpre, hrecs, hread⟩ := readAll_take (le_refl kBlockSize) hdead
  refine ⟨j, hj, ?_, fun i hi hlen => ?_, ?_⟩
  · rw [readLog, hwrite, hsplit]
    refine hread _ (at_new _) _ ?_
    rw [List.length_append]
    omega
  · -- its physical records are the first of all
    have htake := logFragments_take kBlockSize ps i
    refine hrecs i hi (hmost _ htake.length_le ?_)
    rw [← List.prefix_iff_eq_take.mp htake, ← hwrite]
    exact hlen
  · obtain ⟨gs, hgs⟩ := hpre
    rw [hwrite, hwrite, hsplit, ← hgs, layout_append, List.append_assoc]
    exact List.prefix_append _ _

/-- A log that is cut at `n` has the records that lie wholly before `n`, and no other. -/
theorem readLog_cut (ps : List Bytes) (n j : ℕ) (hj : j ≤ ps.length)
    (hin : (writeLog (ps.take j)).length ≤ n)
    (hout : j = ps.length ∨ n < (writeLog (ps.take (j + 1))).length) :
    readLog ((writeLog ps).take n) = ps.take j := by
  obtain ⟨i, hi, hread, hall, hpre⟩ := readLog_torn ps n 0 (Or.inl rfl)
  rw [List.replicate_zero, List.append_nil] at hread hpre
  have hlen := hpre.length_le
  rw [List.length_take] at hlen
  obtain rfl : i = j := by
    refine le_antisymm ?_ (hall j hj hin)
    rcases hout with rfl | hout
    · exact hi
    · -- else one more record lay before `n`
      refine Nat.le_of_lt_succ (Nat.lt_of_not_le fun hlt => ?_)
      have hmono : (writeLog (ps.take (j + 1))).length ≤ (writeLog (ps.take i)).length := by
        obtain ⟨gs, hgs⟩ := logFragments_take 0 (ps.take i) (j + 1)
        rw [List.take_take, Nat.min_eq_left hlt] at hgs
        rw [writeLog_eq, writeLog_eq, ← hgs, layout_append, List.length_append]
        exact Nat.le_add_right _ _
      omega
  exact hread

theorem twoRecords_cut :
    readLog ((writeLog [[1], [2, 3]]).take 12) = List.take 1 [[1], [2, 3]] :=
  readLog_cut [[1], [2, 3]] 12 1 (by decide) (by decide) (Or.inr (by decide))

/-- A log is read back as it was written. -/
theorem readLog_writeLog (ps : List Bytes) : readLog (writeLog ps) = ps := by
  obtain ⟨j, hj, hread, hall, -⟩ := readLog_torn ps (writeLog ps).length 0 (Or.inl rfl)
  have hlast : ps.length ≤ j := hall ps.length (le_refl _) (by rw [List.take_length])
  rw [List.take_length, List.replicate_zero, List.append_nil, List.take_of_length_le hlast] at hread
  exact hread

end Log

end LevelDb

end Tablefs
