/-
The log of `db/log_writer.cc` and `db/log_reader.cc`.

The file is a row of blocks of 32768 bytes. A record goes into the rest of the block, and into
the blocks behind it when it does not fit: a physical record for each part, with a checksum,
its length and its type in front. A block's last bytes, when too few for a header, stay zero.

The reader is the one that recovery makes, with checksums and from the start of the file. The
statuses of the file's own calls are taken to be good.
-/
import Tablefs.LevelDb.Crc32c

set_option autoImplicit false

namespace Tablefs

namespace LevelDb

namespace Log

open ByteString

/-- `RecordType` -/
inductive RecordType
  | kZeroType
  | kFullType
  | kFirstType
  | kMiddleType
  | kLastType
  deriving DecidableEq, Repr

/-- The value of the enumerator. -/
def RecordType.code : RecordType → UInt8
  | .kZeroType => 0
  | .kFullType => 1
  | .kFirstType => 2
  | .kMiddleType => 3
  | .kLastType => 4

def kBlockSize : ℕ := 32768

/-- Checksum, length and type. -/
def kHeaderSize : ℕ := 4 + 2 + 1

/-! ## The writer -/

/-- `log::Writer`: what it has appended, and where it is in the block. -/
structure Writer where
  dest_ : Bytes
  block_offset_ : ℕ
  deriving DecidableEq, Repr

/-- `Writer::Writer` on an empty file. -/
def Writer.new : Writer := ⟨[], 0⟩

/-- The header that `EmitPhysicalRecord` formats. -/
def header (t : RecordType) (ptr : Bytes) : Bytes :=
  let crc := Crc32c.mask (Crc32c.extend 0 (Crc32c.value 0 [t.code]) ptr)
  encodeFixed32 crc
    ++ [UInt8.ofNat (ptr.length &&& 0xff), UInt8.ofNat (ptr.length >>> 8), t.code]

/-- `EmitPhysicalRecord` -/
def Writer.emitPhysicalRecord (w : Writer) (t : RecordType) (ptr : Bytes) : Writer where
  dest_ := w.dest_ ++ (header t ptr ++ ptr)
  block_offset_ := w.block_offset_ + kHeaderSize + ptr.length

/-- The switch to a new block when no header fits into this one. -/
def Writer.switchBlock (w : Writer) : Writer :=
  let leftover := kBlockSize - w.block_offset_
  if leftover < kHeaderSize then ⟨w.dest_ ++ List.replicate leftover 0, 0⟩ else w

/-- How much of what is left goes into this block. -/
def Writer.fragmentLength (w : Writer) (ptr : Bytes) : ℕ :=
  let avail := kBlockSize - w.block_offset_ - kHeaderSize
  if ptr.length < avail then ptr.length else avail

/-- The type of the next fragment. -/
def Writer.fragmentType (w : Writer) (atBegin : Bool) (ptr : Bytes) : RecordType :=
  let atEnd : Bool := ptr.length = w.fragmentLength ptr
  if atBegin && atEnd then .kFullType
  else if atBegin then .kFirstType
  else if atEnd then .kLastType
  else .kMiddleType

/-- The loop of `AddRecord`, with `n` turns left. -/
def Writer.addLoop : ℕ → Writer → Bool → Bytes → Writer
  | 0, w, _, _ => w
  | n + 1, w, atBegin, ptr =>
      let w := w.switchBlock
      let fragment_length := w.fragmentLength ptr
      let w' := w.emitPhysicalRecord (w.fragmentType atBegin ptr) (ptr.take fragment_length)
      if 0 < (ptr.drop fragment_length).length then
        addLoop n w' false (ptr.drop fragment_length)
      else w'

/-- `AddRecord`. Only the first turn can find no room behind the header, so the turns are
enough. -/
def Writer.addRecord (w : Writer) (slice : Bytes) : Writer :=
  w.addLoop (slice.length + 2) true slice

/-! ## The reader -/

/-- `log::Reader`: what the file has not given out yet, the fields, and the calls on the
reporter. -/
structure Reader where
  file : Bytes
  buffer_ : Bytes
  eof_ : Bool
  drops : List (ℕ × String)
  deriving DecidableEq, Repr

namespace Reader

def kEof : ℕ := 5

def kBadRecord : ℕ := 6

/-- A reader of a file. -/
def new (file : Bytes) : Reader := ⟨file, [], false, []⟩

/-- `ReportCorruption` -/
def reportCorruption (r : Reader) (bytes : ℕ) (reason : String) : Reader :=
  { r with drops := r.drops ++ [(bytes, reason)] }

/-- The turn of the loop of `ReadPhysicalRecord` that reads a block. It is taken once: then the
buffer has a header's length, or `eof_` is set. -/
def refill (r : Reader) : Reader :=
  if r.buffer_.length < kHeaderSize ∧ r.eof_ = false then
    { r with
      file := r.file.drop kBlockSize
      buffer_ := r.file.take kBlockSize
      eof_ := decide ((r.file.take kBlockSize).length < kBlockSize) }
  else r

/-- The type, a `char` made `unsigned int`. -/
def recordType (c : UInt8) : ℕ := if c < 128 then c.toNat else 2 ^ 32 - 256 + c.toNat

/-- The length that a header gives. -/
def headerLength (header : Bytes) : ℕ :=
  let a := (header.getD 4 0).toNat &&& 0xff
  let b := (header.getD 5 0).toNat &&& 0xff
  a ||| (b <<< 8)

/-- The type that a header gives. -/
def headerType (header : Bytes) : ℕ := recordType (header.getD 6 0)

/-- The checksum that a header gives. -/
def expectedCrc (header : Bytes) : UInt32 := Crc32c.unmask (decodeFixed32 header)

/-- The checksum of type and payload behind the length. -/
def actualCrc (header : Bytes) (length : ℕ) : UInt32 :=
  Crc32c.value 0 ((header.drop 6).take (1 + length))

/-- The buffer is cleared and what was in it reported. -/
def dropBuffer (r : Reader) (reason : String) : Reader :=
  reportCorruption { r with buffer_ := [] } r.buffer_.length reason

/-- `ReadPhysicalRecord` with the buffer filled: the type or a special value, and the
fragment. -/
def parse (r : Reader) : Reader × ℕ × Bytes :=
  if r.buffer_.length < kHeaderSize then
    if r.buffer_.length = 0 then (r, kEof, [])
    else (r.dropBuffer "truncated record at end of file", kEof, [])
  else
    let type := headerType r.buffer_
    let length := headerLength r.buffer_
    if r.buffer_.length < kHeaderSize + length then
      (r.dropBuffer "bad record length", kBadRecord, [])
    else if type = 0 ∧ length = 0 then ({ r with buffer_ := [] }, kBadRecord, [])
    else if actualCrc r.buffer_ length ≠ expectedCrc r.buffer_ then
      (r.dropBuffer "checksum mismatch", kBadRecord, [])
    else
      ({ r with buffer_ := r.buffer_.drop (kHeaderSize + length) }, type,
        (r.buffer_.drop kHeaderSize).take length)

/-- `ReadPhysicalRecord` -/
def readPhysicalRecord (r : Reader) : Reader × ℕ × Bytes := r.refill.parse

/-- The loop of `ReadRecord`, with `n` turns left. -/
def readRecordLoop : ℕ → Bool → Bytes → Reader → Reader × Option Bytes
  | 0, _, _, r => (r, none)
  | n + 1, in_fragmented_record, scratch, r =>
      match r.readPhysicalRecord with
      | (r, 1, fragment) =>
          (if in_fragmented_record && !scratch.isEmpty then
            r.reportCorruption scratch.length "partial record without end(1)" else r,
            some fragment)
      | (r, 2, fragment) =>
          readRecordLoop n true fragment
            (if in_fragmented_record && !scratch.isEmpty then
              r.reportCorruption scratch.length "partial record without end(2)" else r)
      | (r, 3, fragment) =>
          if in_fragmented_record then readRecordLoop n true (scratch ++ fragment) r
          else
            readRecordLoop n false scratch
              (r.reportCorruption fragment.length "missing start of fragmented record(1)")
      | (r, 4, fragment) =>
          if in_fragmented_record then (r, some (scratch ++ fragment))
          else
            readRecordLoop n false scratch
              (r.reportCorruption fragment.length "missing start of fragmented record(2)")
      | (r, 5, _) =>
          (if in_fragmented_record then
            r.reportCorruption scratch.length "partial record without end(3)" else r, none)
      | (r, 6, _) =>
          if in_fragmented_record then
            readRecordLoop n false []
              (r.reportCorruption scratch.length "error in middle of record")
          else readRecordLoop n false scratch r
      | (r, type, fragment) =>
          readRecordLoop n false []
            (r.reportCorruption
              (fragment.length + if in_fragmented_record then scratch.length else 0)
              ("unknown record type " ++ toString type))

/-- `ReadRecord`. Every turn but the last takes bytes. -/
def readRecord (r : Reader) : Reader × Option Bytes :=
  readRecordLoop (r.file.length + r.buffer_.length + 1) false [] r

/-- `ReadRecord` until it fails, with `n` calls left. -/
def readAll : ℕ → Reader → List Bytes
  | 0, _ => []
  | n + 1, r =>
      match r.readRecord with
      | (r, some record) => record :: readAll n r
      | (_, none) => []

end Reader

/-- The records that are read from a file. -/
def readLog (file : Bytes) : List Bytes := (Reader.new file).readAll (file.length + 1)

/-- The file after `AddRecord` of some records. -/
def writeLog (records : List Bytes) : Bytes := (records.foldl Writer.addRecord Writer.new).dest_

end Log

end LevelDb

end Tablefs
