-- SUMMARY: How many bytes the frame decoder keeps, whatever the peer sends.
import Rdb.Transport.FrameStream

/-!
# The memory of the frame decoder

The decoder keeps consumed bytes until they are half of its buffer, and it keeps
unread bytes until they make up a frame. Both are bounded: what is retained is less
than twice what is unread, and a frame that `next` waits for is at most
`max_frame_bytes` long. So a caller that asks for frames after each chunk decides how
much memory a stream can take up, and the peer does not.
-/

namespace Rdb

namespace FrameDecoder

/-! ## Consumed bytes -/

/-- The consumed bytes are less than half of the buffer. -/
def Compacted (d : FrameDecoder) : Prop := d.head = 0 ∨ 2 * d.head < d.buffer.length

theorem compacted_compact (d : FrameDecoder) : d.compact.Compacted := by
  unfold compact
  split
  · rename_i hzero
    exact .inl hzero
  · split
    · exact .inl rfl
    · split
      · exact .inl rfl
      · rename_i hhalf
        exact .inr (by omega)

theorem Compacted.feed {d : FrameDecoder} (h : d.Compacted) (data : List UInt8) :
    (d.feed data).Compacted := by
  unfold FrameDecoder.feed
  split
  · exact h
  · refine h.imp id fun hhalf => ?_
    simp only [List.length_append]
    omega

theorem Compacted.next {d : FrameDecoder} (h : d.Compacted) (out : List UInt8) :
    (d.next out).1.Compacted := by
  unfold FrameDecoder.next
  dsimp only
  split
  · exact h
  split
  · exact compacted_compact d
  -- the two error returns leave the buffer as it is
  split
  · exact h
  split
  · exact h
  split
  · exact compacted_compact d
  · exact compacted_compact _

/-- What is retained is less than twice what is unread, and nothing if nothing is
    unread. -/
theorem Compacted.length_buffer {d : FrameDecoder} (h : d.Compacted) :
    (d.buffered = 0 → d.buffer.length = 0) ∧
      (0 < d.buffered → d.buffer.length < 2 * d.buffered) := by
  have hle := d.head_le
  unfold buffered
  rcases h with hzero | hhalf <;> omega

/-! ## Unread bytes -/

@[simp] theorem buffered_compact (d : FrameDecoder) : d.compact.buffered = d.buffered := by
  rw [← length_unread, unread_compact, length_unread]

theorem buffered_feed_le (d : FrameDecoder) (data : List UInt8) :
    (d.feed data).buffered ≤ d.buffered + data.length := by
  cases he : d.error with
  | true =>
      rw [feed_of_error data he]
      omega
  | false => rw [← length_unread, unread_feed data he, List.length_append, length_unread]

/-- What the parser waits for is no longer than a whole frame may be. -/
theorem length_lt_of_readFrame_more {max : Nat} {s : List UInt8}
    (h : readFrame max s = .more) : s.length < kFramePrefixSize + max := by
  rw [readFrame_eq] at h
  split_ifs at h with hlen hbad hshort
  · omega
  · rw [not_or] at hbad
    omega

theorem buffered_next_le (d : FrameDecoder) (out : List UInt8) :
    (d.next out).1.buffered ≤ d.buffered := by
  rcases next_cases d out with ⟨-, hn⟩ | ⟨-, -, hn⟩ | ⟨-, -, hn⟩ | ⟨-, f, n, d', -, hn, hu, -⟩
  · rw [hn]
  · rw [hn, buffered_compact]
  · rw [hn]
    exact Nat.le_refl _
  · rw [hn, ← length_unread, ← length_unread, hu, List.length_drop]
    exact Nat.sub_le _ _

@[simp] theorem next_maxFrameBytes (d : FrameDecoder) (out : List UInt8) :
    (d.next out).1.maxFrameBytes = d.maxFrameBytes := (toReader_next d out).2.2

/-- Where `next` returns false and there is no error, less than a frame is unread. -/
theorem buffered_lt_of_next_false {d : FrameDecoder} {out : List UInt8}
    (hfalse : (d.next out).2.1 = false) (herr : (d.next out).1.error = false) :
    (d.next out).1.buffered < kFramePrefixSize + d.maxFrameBytes := by
  rcases next_cases d out with ⟨he, hn⟩ | ⟨-, hr, hn⟩ | ⟨-, -, hn⟩ | ⟨-, f, n, d', -, hn, -⟩
  · rw [hn, he] at herr
    cases herr
  · rw [hn, buffered_compact, ← length_unread]
    exact length_lt_of_readFrame_more hr
  · rw [hn] at herr
    cases herr
  · rw [hn] at hfalse
    cases hfalse

/-- An error does not go away without a `reset`. -/
theorem error_of_next {d : FrameDecoder} {out : List UInt8}
    (h : (d.next out).1.error = false) : d.error = false := by
  cases he : d.error with
  | false => rfl
  | true => simp [next, he] at h

/-! ## A caller that drains the decoder -/

/-- A caller that feeds at most `c` bytes at a time and calls `next` until it returns
    false after each feed. The flag says that it is not done with that. -/
def caller (c : Nat) : Machine (FrameDecoder × Bool) Call Answer where
  step
    | (d, draining), .feed data =>
      if draining = false ∧ data.length ≤ c then some ((d.feed data, true), []) else none
    | (d, draining), .next out =>
      some (((d.next out).1, draining && (d.next out).2.1),
        [.returned (d.next out).2.1 (d.next out).2.2])
    | (d, _), .reset => some ((d.reset, false), [])

/-- What is known of the decoder of such a caller. -/
structure Drains (max c : Nat) (d : FrameDecoder) (draining : Bool) : Prop where
  max_eq : d.maxFrameBytes = max
  compacted : d.Compacted
  buffered_lt : d.buffered < kFramePrefixSize + max + c
  drained : draining = false → d.error = false → d.buffered < kFramePrefixSize + max

section Caller

variable {max c : Nat} {d d' : FrameDecoder} {draining draining' : Bool} {call : Call}
  {evs tr : List Answer} {calls : List Call}

theorem drains_of_empty (hmax : d.maxFrameBytes = max) (hhead : d.head = 0)
    (hbuf : d.buffered = 0) : Drains max c d draining where
  max_eq := hmax
  compacted := .inl hhead
  buffered_lt := by rw [hbuf]; simp only [kFramePrefixSize]; omega
  drained _ _ := by rw [hbuf]; simp only [kFramePrefixSize]; omega

theorem Drains.feed (h : Drains max c d false) {data : List UInt8} (hlen : data.length ≤ c) :
    Drains max c (d.feed data) true where
  max_eq := by rw [feed_maxFrameBytes, h.max_eq]
  compacted := h.compacted.feed data
  buffered_lt := by
    cases he : d.error with
    | true =>
        rw [feed_of_error data he]
        exact h.buffered_lt
    | false =>
        have hle := buffered_feed_le d data
        have hlt := h.drained rfl he
        omega
  drained hfalse := by cases hfalse

theorem Drains.next (h : Drains max c d draining) (out : List UInt8) :
    Drains max c (d.next out).1 (draining && (d.next out).2.1) where
  max_eq := by rw [next_maxFrameBytes, h.max_eq]
  compacted := h.compacted.next out
  buffered_lt := Nat.lt_of_le_of_lt (buffered_next_le d out) h.buffered_lt
  drained hdone herr := by
    rcases (Bool.and_eq_false_iff).mp hdone with hdraining | hfalse
    · exact Nat.lt_of_le_of_lt (buffered_next_le d out) (h.drained hdraining (error_of_next herr))
    · rw [← h.max_eq]
      exact buffered_lt_of_next_false hfalse herr

theorem Drains.step (h : Drains max c d draining)
    (hstep : (caller c).step (d, draining) call = some ((d', draining'), evs)) :
    Drains max c d' draining' := by
  cases call with
  | feed data =>
      obtain ⟨⟨rfl, hlen⟩, heq⟩ := Option.ite_none_right_eq_some.mp hstep
      cases heq
      exact h.feed hlen
  | next out =>
      cases hstep
      exact h.next out
  | reset =>
      cases hstep
      exact drains_of_empty h.max_eq rfl rfl

theorem drains_of_run
    (h : (caller c).Run (new max, false) calls tr (d, draining)) : Drains max c d draining :=
  Machine.Run.invariant (I := fun _ s => Drains max c s.1 s.2) h (drains_of_empty rfl rfl rfl)
    fun hI hstep => hI.step hstep

theorem compacted_of_run (h : machine.Run (new max) calls tr d) :
    d.Compacted ∧ d.maxFrameBytes = max := by
  refine Machine.Run.invariant (I := fun _ d => d.Compacted ∧ d.maxFrameBytes = max) h
    ⟨.inl rfl, rfl⟩ ?_
  rintro tr d call d' evs ⟨hcomp, hmax⟩ hstep
  cases call with
  | feed data =>
      cases hstep
      exact ⟨hcomp.feed data, by rw [feed_maxFrameBytes, hmax]⟩
  | next out =>
      cases hstep
      exact ⟨hcomp.next out, by rw [next_maxFrameBytes, hmax]⟩
  | reset =>
      cases hstep
      exact ⟨.inl rfl, hmax⟩

end Caller

/-! ## The bound -/

/-- **The peer does not decide how much is kept.** In every state a decoder reaches,
    its read position is inside the buffer and before its middle, so the buffer is
    shorter than twice what is unread, or empty; where `next` returns false without an
    error, less than one frame is unread. So the buffer of a caller that feeds at most
    `c` bytes at a time and then asks until it gets no more stays below
    `2 * (8 + max + c)` bytes, in every state of every run. -/
theorem memory_bounded (max : Nat) :
    (∀ calls tr d, machine.Run (new max) calls tr d →
      d.head ≤ d.buffer.length ∧ (d.head = 0 ∨ 2 * d.head < d.buffer.length) ∧
      (d.buffered = 0 → d.buffer.length = 0) ∧
      (0 < d.buffered → d.buffer.length < 2 * d.buffered) ∧
      ∀ out, (d.next out).2.1 = false → (d.next out).1.error = false →
        (d.next out).1.buffered < 8 + max) ∧
    ∀ c calls tr d draining, (caller c).Run (new max, false) calls tr (d, draining) →
      d.buffer.length < 2 * (8 + max + c) := by
  refine ⟨?_, ?_⟩
  · intro calls tr d hrun
    obtain ⟨hcomp, hmax⟩ := compacted_of_run hrun
    obtain ⟨hnone, hsome⟩ := hcomp.length_buffer
    refine ⟨d.head_le, hcomp, hnone, hsome, ?_⟩
    intro out hfalse herr
    rw [← hmax]
    exact buffered_lt_of_next_false hfalse herr
  · intro c calls tr d draining hrun
    have hdrains := drains_of_run hrun
    have hlt := hdrains.buffered_lt
    obtain ⟨hnone, hsome⟩ := hdrains.compacted.length_buffer
    simp only [kFramePrefixSize] at hlt
    rcases Nat.eq_zero_or_pos d.buffered with hzero | hpos
    · have := hnone hzero
      omega
    · have := hsome hpos
      omega

/-- A peer that announces four bytes and sends them in three chunks. -/
theorem memory_bounded_trickle :
    ∃ calls tr d draining, (caller 9).Run (new 4, false) calls tr (d, draining) ∧
      framesOf tr = [[1, 2, 3, 4]] ∧ d.buffer.length < 2 * (8 + 4 + 9) := by
  have hrun := Machine.Run.of_isSome (caller 9) (new 4, false)
    [.feed ((encodeFrame [1, 2, 3, 4]).take 9), .next [], .feed [2], .next [], .feed [3, 4],
      .next [], .next []] (by decide)
  exact ⟨_, _, _, _, hrun, by decide, (memory_bounded 4).2 9 _ _ _ _ hrun⟩

end FrameDecoder

end Rdb
