-- SUMMARY: The frame codec of `transport/framing.h`: `encode_frame` and the incremental `FrameDecoder`.
import Rdb.Lib.LittleEndian
import Rdb.Lib.Machine

/-!
# Framing

A frame is `[magic u32][length u32][payload...]`, little-endian. The decoder
keeps the bytes it was fed in `buffer` with a read position `head`, and moves
the unread rest to the front only once half of the buffer has been consumed.
-/

namespace Rdb

/-- "FRM1" -/
def kFrameMagic : Nat := 0x314D5246

def kFramePrefixSize : Nat := 8

/-- `encode_frame(payload, size, out)`: append one frame to `out`. The length
    field holds `static_cast<uint32_t>(size)`. -/
def encodeFrameTo (payload out : List UInt8) : List UInt8 :=
  out ++ LittleEndian.put 4 kFrameMagic ++ LittleEndian.put 4 (payload.length % 2 ^ 32) ++ payload

/-- `encode_frame(payload, size)`: one frame on its own. -/
def encodeFrame (payload : List UInt8) : List UInt8 :=
  encodeFrameTo payload []

/-- `head` never passes the end of the buffer, so `buffer_.size() - head_` does
    not underflow. -/
structure FrameDecoder where
  buffer : List UInt8
  head : Nat
  maxFrameBytes : Nat
  frames : Nat
  error : Bool
  head_le : head ≤ buffer.length

namespace FrameDecoder

def new (maxFrameBytes : Nat := 8 * 1024 * 1024) : FrameDecoder where
  buffer := []
  head := 0
  maxFrameBytes
  frames := 0
  error := false
  head_le := le_rfl

/-- `buffered()` -/
def buffered (d : FrameDecoder) : Nat := d.buffer.length - d.head

/-- `frames_decoded()` -/
def framesDecoded (d : FrameDecoder) : Nat := d.frames

def feed (d : FrameDecoder) (data : List UInt8) : FrameDecoder :=
  if d.error then d
  else
    { d with
      buffer := d.buffer ++ data
      head_le := by rw [List.length_append]; exact d.head_le.trans (Nat.le_add_right _ _) }

/-- Drop the consumed bytes, but only when they are at least half of the
    buffer. -/
def compact (d : FrameDecoder) : FrameDecoder :=
  if d.head = 0 then d
  else if d.head = d.buffer.length then { d with buffer := [], head := 0, head_le := le_rfl }
  else if d.head * 2 ≥ d.buffer.length then
    { d with buffer := d.buffer.drop d.head, head := 0, head_le := Nat.zero_le _ }
  else d

/-- The bytes at `buffer_.data() + head_`. -/
def unread (d : FrameDecoder) : List UInt8 := d.buffer.drop d.head

/-- The magic at the front of the unread bytes. -/
def magicAt (p : List UInt8) : Nat := LittleEndian.get 4 p

/-- The length field behind the magic. -/
def lenAt (p : List UInt8) : Nat := LittleEndian.get 4 (p.drop 4)

/-- `head_ += total; ++frames_;` -/
def advance (d : FrameDecoder) (total : Nat) (h : total ≤ d.buffer.length - d.head) :
    FrameDecoder :=
  { d with
    head := d.head + total
    frames := d.frames + 1
    head_le := by have := d.head_le; omega }

/-- `next(out)`: the new decoder, the returned flag, and `out` after the call. -/
def next (d : FrameDecoder) (out : List UInt8) : FrameDecoder × Bool × List UInt8 :=
  if d.error then (d, false, out)
  else if d.buffer.length - d.head < kFramePrefixSize then (d.compact, false, out)
  else
    let p := d.unread
    if magicAt p ≠ kFrameMagic then ({ d with error := true }, false, out)
    else
      let len := lenAt p
      if len > d.maxFrameBytes then ({ d with error := true }, false, out)
      else
        let total := kFramePrefixSize + len
        if h : d.buffer.length - d.head < total then (d.compact, false, out)
        else
          ((d.advance total (by omega)).compact, true, (p.take total).drop kFramePrefixSize)

/-- `reset()`. It keeps the frame count. -/
def reset (d : FrameDecoder) : FrameDecoder :=
  { d with buffer := [], head := 0, error := false, head_le := le_rfl }

/-! ## The decoder as a machine -/

/-- A call on the decoder. `next` carries what the caller's `out` holds before
    the call. -/
inductive Call where
  | feed (data : List UInt8)
  | next (out : List UInt8)
  | reset
  deriving DecidableEq

/-- What `next` answered, with `out` after the call. -/
inductive Answer where
  | returned (ok : Bool) (out : List UInt8)
  deriving DecidableEq

def machine : Machine FrameDecoder Call Answer where
  step d
    | .feed data => some (d.feed data, [])
    | .next out  => some ((d.next out).1, [.returned (d.next out).2.1 (d.next out).2.2])
    | .reset     => some (d.reset, [])

/-- The bytes a schedule feeds. -/
def fed : List Call → List UInt8
  | []                => []
  | .feed data :: cs  => data ++ fed cs
  | .next _ :: cs     => fed cs
  | .reset :: cs      => fed cs

@[simp] theorem fed_append (cs cs' : List Call) : fed (cs ++ cs') = fed cs ++ fed cs' := by
  induction cs with
  | nil => rfl
  | cons c cs ih => cases c <;> simp [fed, ih]

/-- The frame a successful `next` handed out. -/
def Answer.frame? : Answer → Option (List UInt8)
  | .returned true out => some out
  | .returned false _  => none

/-- The frames returned by the successful `next` calls. -/
def framesOf (tr : List Answer) : List (List UInt8) := tr.filterMap Answer.frame?

@[simp] theorem framesOf_append (tr tr' : List Answer) :
    framesOf (tr ++ tr') = framesOf tr ++ framesOf tr' := by simp [framesOf]

@[simp] theorem framesOf_nil : framesOf [] = [] := rfl
@[simp] theorem framesOf_true (out : List UInt8) : framesOf [.returned true out] = [out] := rfl
@[simp] theorem framesOf_false (out : List UInt8) : framesOf [.returned false out] = [] := rfl

/-! ## What each operation does to the unread bytes -/

@[simp] theorem length_unread (d : FrameDecoder) : d.unread.length = d.buffered := by
  simp [unread, buffered]

@[simp] theorem unread_new (max : Nat) : (new max).unread = [] := rfl
@[simp] theorem unread_reset (d : FrameDecoder) : d.reset.unread = [] := rfl

theorem unread_feed {d : FrameDecoder} (data : List UInt8) (h : d.error = false) :
    (d.feed data).unread = d.unread ++ data := by
  simp [feed, h, unread, List.drop_append_of_le_length d.head_le]

theorem feed_of_error {d : FrameDecoder} (data : List UInt8) (h : d.error = true) :
    d.feed data = d := by
  simp [feed, h]

/-- Compaction moves bytes, it neither reads nor loses any. -/
@[simp] theorem unread_compact (d : FrameDecoder) : d.compact.unread = d.unread := by
  unfold compact
  split
  · rfl
  · split
    · rename_i hend; simp [unread, hend]
    · split <;> simp [unread]

@[simp] theorem compact_error (d : FrameDecoder) : d.compact.error = d.error := by
  unfold compact; split_ifs <;> rfl

@[simp] theorem compact_frames (d : FrameDecoder) : d.compact.frames = d.frames := by
  unfold compact; split_ifs <;> rfl

@[simp] theorem compact_maxFrameBytes (d : FrameDecoder) :
    d.compact.maxFrameBytes = d.maxFrameBytes := by
  unfold compact; split_ifs <;> rfl

@[simp] theorem unread_advance {d : FrameDecoder} {total : Nat}
    (h : total ≤ d.buffer.length - d.head) : (d.advance total h).unread = d.unread.drop total := by
  simp [advance, unread]

@[simp] theorem unread_setError (d : FrameDecoder) (e : Bool) :
    ({ d with error := e } : FrameDecoder).unread = d.unread := rfl

end FrameDecoder

end Rdb
