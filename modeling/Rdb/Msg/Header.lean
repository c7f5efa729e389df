-- SUMMARY: The message header codec of `msg/header.h`, a bijection onto the headers it accepts.
import Rdb.Lib.LittleEndian

/-!
# Message header

48 bytes, little-endian, ten fields at fixed offsets. `encode_header` writes into
a buffer that the caller provides, field by field; `decode_header` reads into a
header that the caller provides and leaves it half filled when a check fails.
-/

namespace Rdb

open LittleEndian

/-- "RDB1" -/
def kMessageMagic : UInt32 := 0x31424452

def kMessageVersion : UInt16 := 1

def kHeaderSize : Nat := 48

def kFlagNone : UInt16 := 0

structure MessageHeader where
  magic : UInt32 := kMessageMagic
  version : UInt16 := kMessageVersion
  flags : UInt16 := kFlagNone
  schemaId : UInt32 := 0
  schemaHash : UInt32 := 0
  seq : UInt64 := 0
  stampNs : UInt64 := 0
  publishNs : UInt64 := 0
  payloadSize : UInt32 := 0
  reserved : UInt32 := 0
  deriving DecidableEq, Repr

/-! ## Codec -/

def putU16 (off : Nat) (v : UInt16) : List UInt8 → List UInt8 := putAt 2 off v.toNat
def putU32 (off : Nat) (v : UInt32) : List UInt8 → List UInt8 := putAt 4 off v.toNat
def putU64 (off : Nat) (v : UInt64) : List UInt8 → List UInt8 := putAt 8 off v.toNat

def getU16 (off : Nat) (bs : List UInt8) : UInt16 := UInt16.ofNat (getAt 2 off bs)
def getU32 (off : Nat) (bs : List UInt8) : UInt32 := UInt32.ofNat (getAt 4 off bs)
def getU64 (off : Nat) (bs : List UInt8) : UInt64 := UInt64.ofNat (getAt 8 off bs)

/-- `encode_header(h, out)`: what is in `out` afterwards. -/
def encodeHeader (h : MessageHeader) (out : List UInt8) : List UInt8 :=
  let out := putU32 0 h.magic out
  let out := putU16 4 h.version out
  let out := putU16 6 h.flags out
  let out := putU32 8 h.schemaId out
  let out := putU32 12 h.schemaHash out
  let out := putU64 16 h.seq out
  let out := putU64 24 h.stampNs out
  let out := putU64 32 h.publishNs out
  let out := putU32 40 h.payloadSize out
  putU32 44 h.reserved out

/-- `decode_header(in, size, out)`: the result, and what is in `out` afterwards. -/
def decodeHeader (bytes : List UInt8) (out : MessageHeader) : Bool × MessageHeader :=
  if bytes.length < kHeaderSize then (false, out)
  else
    let out := { out with magic := getU32 0 bytes }
    if out.magic ≠ kMessageMagic then (false, out)
    else
      let out := { out with version := getU16 4 bytes }
      if out.version = 0 ∨ out.version > kMessageVersion then (false, out)
      else
        (true, { out with
          flags := getU16 6 bytes
          schemaId := getU32 8 bytes
          schemaHash := getU32 12 bytes
          seq := getU64 16 bytes
          stampNs := getU64 24 bytes
          publishNs := getU64 32 bytes
          payloadSize := getU32 40 bytes
          reserved := getU32 44 bytes })

/-! ## What the two sides of the codec do -/

/-- The header that the bytes spell, whatever it is. -/
def headerAt (bytes : List UInt8) : MessageHeader where
  magic := getU32 0 bytes
  version := getU16 4 bytes
  flags := getU16 6 bytes
  schemaId := getU32 8 bytes
  schemaHash := getU32 12 bytes
  seq := getU64 16 bytes
  stampNs := getU64 24 bytes
  publishNs := getU64 32 bytes
  payloadSize := getU32 40 bytes
  reserved := getU32 44 bytes

/-- The fields one behind the other. -/
def headerBytes (h : MessageHeader) : List UInt8 :=
  put 4 h.magic.toNat ++ put 2 h.version.toNat ++ put 2 h.flags.toNat ++
  put 4 h.schemaId.toNat ++ put 4 h.schemaHash.toNat ++ put 8 h.seq.toNat ++
  put 8 h.stampNs.toNat ++ put 8 h.publishNs.toNat ++ put 4 h.payloadSize.toNat ++
  put 4 h.reserved.toNat

@[simp] theorem length_headerBytes (h : MessageHeader) : (headerBytes h).length = kHeaderSize := by
  simp [headerBytes, kHeaderSize]

/-- The ten writes neither overlap nor leave a gap. -/
theorem encodeHeader_eq (h : MessageHeader) (out : List UInt8) :
    encodeHeader h out = headerBytes h ++ out.drop kHeaderSize := by
  have hfirst : putAt 4 0 h.magic.toNat out = put 4 h.magic.toNat ++ out.drop 4 := by
    have happ : putAt 4 0 h.magic.toNat ([] ++ out) = ([] ++ put 4 h.magic.toNat) ++ out.drop 4 :=
      putAt_append rfl
    exact happ
  simp only [encodeHeader, putU16, putU32, putU64, hfirst]
  simp (disch := simp) only [putAt_append]
  simp [headerBytes, kHeaderSize]

/-- What `decode_header` asks of a header. -/
def MessageHeader.Valid (h : MessageHeader) : Prop :=
  h.magic = kMessageMagic ∧ h.version ≠ 0 ∧ h.version ≤ kMessageVersion

/-- Decoding is a check of the length, the magic and the version. -/
theorem decodeHeader_accepts_iff (bytes : List UInt8) (out : MessageHeader) :
    (decodeHeader bytes out).1 = true ↔
      kHeaderSize ≤ bytes.length ∧ (headerAt bytes).Valid := by
  simp only [decodeHeader, MessageHeader.Valid, headerAt]
  split_ifs with hlen hmagic hversion
  · simp [Nat.not_le.mpr hlen]
  · simp [hmagic]
  · have hno : ¬ (getU16 4 bytes ≠ 0 ∧ getU16 4 bytes ≤ kMessageVersion) := by
      rintro ⟨hzero, hle⟩
      exact UInt16.not_lt.mpr hle (hversion.resolve_left hzero)
    simp [hno]
  · rw [not_or, gt_iff_lt, UInt16.not_lt] at hversion
    exact iff_of_true rfl ⟨Nat.le_of_not_lt hlen, not_not.mp hmagic, hversion⟩

/-- An accepted header is read as it stands, and nothing of the old one is left. -/
theorem decodeHeader_eq {bytes : List UInt8} {out : MessageHeader}
    (h : (decodeHeader bytes out).1 = true) : decodeHeader bytes out = (true, headerAt bytes) := by
  simp only [decodeHeader] at h ⊢
  split_ifs at h ⊢
  rfl

section Fields

variable (off : Nat) (bs : List UInt8)

@[simp] theorem toNat_getU16 : (getU16 off bs).toNat = getAt 2 off bs :=
  UInt16.toNat_ofNat_of_lt' (getAt_lt 2 off bs)

@[simp] theorem toNat_getU32 : (getU32 off bs).toNat = getAt 4 off bs :=
  UInt32.toNat_ofNat_of_lt' (getAt_lt 4 off bs)

@[simp] theorem toNat_getU64 : (getU64 off bs).toNat = getAt 8 off bs :=
  UInt64.toNat_ofNat_of_lt' (getAt_lt 8 off bs)

end Fields

/-- Reading the fields that were written. -/
theorem headerAt_headerBytes (h : MessageHeader) (rest : List UInt8) :
    headerAt (headerBytes h ++ rest) = h := by
  have h16 : ∀ (v : UInt16) rest, getAt 2 0 (put 2 v.toNat ++ rest) = v.toNat :=
    fun v => getAt_put v.toNat_lt
  have h32 : ∀ (v : UInt32) rest, getAt 4 0 (put 4 v.toNat ++ rest) = v.toNat :=
    fun v => getAt_put v.toNat_lt
  have h64 : ∀ (v : UInt64) rest, getAt 8 0 (put 8 v.toNat ++ rest) = v.toNat :=
    fun v => getAt_put v.toNat_lt
  -- every read skips the fields before its own
  simp only [headerAt, getU16, getU32, getU64, headerBytes, List.append_assoc]
  simp (disch := decide) only [getAt_put_append, Nat.reduceSub]
  simp only [h16, h32, h64, UInt16.ofNat_toNat, UInt32.ofNat_toNat, UInt64.ofNat_toNat]

/-- Writing the fields that were read. -/
theorem headerBytes_headerAt {bytes : List UInt8} (h : kHeaderSize ≤ bytes.length) :
    headerBytes (headerAt bytes) = bytes.take kHeaderSize := by
  have hlen : 48 ≤ bytes.length := h
  simp only [headerBytes, headerAt, toNat_getU16, toNat_getU32, toNat_getU64]
  simp (disch := omega) only [put_getAt]
  have hsize : kHeaderSize = 4 + 2 + 2 + 4 + 4 + 8 + 8 + 8 + 4 + 4 := rfl
  rw [hsize]
  simp only [List.take_add, List.drop_zero]

/-- The fields do not depend on the bytes behind them. -/
theorem headerAt_take (bytes : List UInt8) :
    headerAt (bytes.take kHeaderSize) = headerAt bytes := by
  simp (disch := decide) only [headerAt, getU16, getU32, getU64, getAt_take]

/-- The magic as bytes. -/
theorem getU32_eq_iff {bytes : List UInt8} (h : 4 ≤ bytes.length) (v : UInt32) :
    getU32 0 bytes = v ↔ bytes.take 4 = put 4 v.toNat := by
  have hput : put 4 (getAt 4 0 bytes) = bytes.take 4 := put_getAt (by omega)
  have hget : getAt 4 0 (bytes.take 4) = getAt 4 0 bytes := getAt_take (by omega)
  constructor
  · rintro rfl
    rw [toNat_getU32, hput]
  · intro htake
    rw [← UInt32.toNat_inj, toNat_getU32, ← hget, htake]
    simpa using getAt_put (n := 4) v.toNat_lt []

/-- **The header codec is a bijection onto the accepted headers.** A header with
    the right magic and a known version survives the round trip, whatever was in
    the two buffers before. A byte string is accepted iff it is long enough, starts
    with the magic and has a known version behind it; then encoding the result
    gives its first 48 bytes, and neither the bytes after them nor the old
    contents of the result matter. -/
theorem header_codec :
    (∀ (h : MessageHeader) (buffer : List UInt8) (out : MessageHeader),
      h.magic = kMessageMagic → 1 ≤ h.version → h.version ≤ kMessageVersion →
      decodeHeader (encodeHeader h buffer) out = (true, h)) ∧
    (∀ (bytes : List UInt8) (out : MessageHeader),
      (decodeHeader bytes out).1 = true ↔
        kHeaderSize ≤ bytes.length ∧ bytes.take 4 = put 4 kMessageMagic.toNat ∧
        1 ≤ get 2 (bytes.drop 4) ∧ get 2 (bytes.drop 4) ≤ kMessageVersion.toNat) ∧
    (∀ (bytes : List UInt8) (out : MessageHeader), (decodeHeader bytes out).1 = true →
      (∀ buffer, encodeHeader (decodeHeader bytes out).2 buffer =
        bytes.take kHeaderSize ++ buffer.drop kHeaderSize) ∧
      ∀ (bytes' : List UInt8) (out' : MessageHeader),
        bytes'.take kHeaderSize = bytes.take kHeaderSize →
        decodeHeader bytes' out' = decodeHeader bytes out) := by
  refine ⟨?_, ?_, ?_⟩
  · intro h buffer out hmagic hone hle
    have hat : headerAt (encodeHeader h buffer) = h := by
      rw [encodeHeader_eq, headerAt_headerBytes]
    have hne : h.version ≠ 0 := by
      intro hzero
      rw [hzero] at hone
      exact absurd hone (by decide)
    have hlen : kHeaderSize ≤ (encodeHeader h buffer).length := by simp [encodeHeader_eq]
    have hacc : (decodeHeader (encodeHeader h buffer) out).1 = true := by
      rw [decodeHeader_accepts_iff, hat]
      exact ⟨hlen, hmagic, hne, hle⟩
    rw [decodeHeader_eq hacc, hat]
  · intro bytes out
    have hversion : (headerAt bytes).version.toNat = get 2 (bytes.drop 4) := toNat_getU16 4 bytes
    rw [decodeHeader_accepts_iff]
    refine and_congr_right fun hlen => and_congr ?_ (and_congr ?_ ?_)
    · exact getU32_eq_iff ((by decide : 4 ≤ kHeaderSize).trans hlen) _
    · rw [ne_eq, ← UInt16.toNat_inj, hversion]
      exact Nat.one_le_iff_ne_zero.symm
    · rw [UInt16.le_iff_toNat_le, hversion]
  · intro bytes out hacc
    obtain ⟨hlen, hvalid⟩ := (decodeHeader_accepts_iff bytes out).mp hacc
    refine ⟨?_, ?_⟩
    · intro buffer
      rw [decodeHeader_eq hacc, encodeHeader_eq, headerBytes_headerAt hlen]
    · intro bytes' out' htake
      have hat : headerAt bytes' = headerAt bytes := by
        rw [← headerAt_take bytes', htake, headerAt_take]
      have hlen' : kHeaderSize ≤ bytes'.length := by
        have hsize := congrArg List.length htake
        rw [List.length_take, List.length_take] at hsize
        omega
      have hacc' : (decodeHeader bytes' out').1 = true := by
        rw [decodeHeader_accepts_iff, hat]
        exact ⟨hlen', hvalid⟩
      rw [decodeHeader_eq hacc', decodeHeader_eq hacc, hat]

/-- Ten fields that differ in every byte, and the same bytes with version 2. -/
theorem header_codec_fields :
    ∃ h : MessageHeader,
      h = { flags := 0x0201, schemaId := 0x06050403, schemaHash := 0x0A090807,
            seq := 0x1211100F0E0D0C0B, stampNs := 0x1A19181716151413,
            publishNs := 0x2221201F1E1D1C1B, payloadSize := 0x26252423, reserved := 0x2A292827 } ∧
      encodeHeader h [] = [0x52, 0x44, 0x42, 0x31, 1, 0] ++ (List.range' 1 42).map UInt8.ofNat ∧
      decodeHeader (encodeHeader h []) {} = (true, h) ∧
      (decodeHeader ((encodeHeader h []).set 4 2) {}).1 = false := by
  refine ⟨_, rfl, by decide, header_codec.1 _ [] {} rfl (by decide) (by decide), ?_⟩
  rw [← Bool.not_eq_true, header_codec.2.1]
  exact fun h => absurd h.2.2.2 (by decide)

end Rdb
