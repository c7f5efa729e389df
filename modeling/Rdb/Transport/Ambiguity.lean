-- SUMMARY: Up to which payload size a byte stream is the encoding of one list of payloads only.
import Rdb.Transport.FrameStream

/-!
# Unambiguous framing

A stream of frames can be read back because the length field of each frame is the
length of its payload. The field has 32 bits and `encode_frame` takes a `size_t`: from
`2^32` bytes on, the field holds the length modulo `2^32`, and the rest of the payload
is read as the frames it happens to look like.
-/

namespace Rdb

namespace FrameDecoder

/-- Every two lists of payloads of at most `n` bytes with the same encoding are equal. -/
def Unambiguous (n : Nat) : Prop :=
  ∀ ps qs : List (List UInt8), (∀ p ∈ ps ++ qs, p.length ≤ n) → wire ps = wire qs → ps = qs

/-- As long as the length field is right, the parser finds the payloads again. -/
theorem unambiguous_of_lt {n : Nat} (h : n < 2 ^ 32) : Unambiguous n := by
  intro ps qs hlen hwire
  have hps := parseFrames_wire h fun p hp => hlen p (List.mem_append_left qs hp)
  have hqs := parseFrames_wire h fun q hq => hlen q (List.mem_append_right ps hq)
  rw [hwire, hqs] at hps
  exact (Prod.mk.inj hps).1.symm

/-- Frames at the end of a payload, as many bytes as the length field can count, can be
    left out of it. -/
theorem wire_singleton_append {p : List UInt8} {ts : List (List UInt8)}
    (h : (wire ts).length % 2 ^ 32 = 0) : wire [p ++ wire ts] = wire (p :: ts) := by
  have hlen : (p ++ wire ts).length % 2 ^ 32 = p.length % 2 ^ 32 := by
    rw [List.length_append, Nat.add_mod, h, Nat.add_zero, Nat.mod_mod]
  simp only [wire_cons, wire_nil, List.append_nil, encodeFrame, encodeFrameTo, hlen,
    List.append_assoc]

/-- Frames without a payload, eight bytes each. -/
theorem length_wire_replicate (k : Nat) :
    (wire (List.replicate k [])).length = kFramePrefixSize * k := by
  induction k with
  | zero => rfl
  | succ k ih =>
      rw [List.replicate_succ, wire_cons, List.length_append, length_encodeFrame, ih,
        List.length_nil, Nat.mul_succ]
      omega

/-- Every length from `2^32` on has a payload whose encoding is that of several frames. -/
theorem exists_ambiguous {n : Nat} (h : 2 ^ 32 ≤ n) :
    ∃ (p : List UInt8) (qs : List (List UInt8)), p.length = n ∧ (∀ q ∈ qs, q.length ≤ n) ∧
      wire [p] = wire qs ∧ [p] ≠ qs := by
  -- the whole multiples of `2^32` are empty frames, what is left over is the first payload
  have hlen := length_wire_replicate (2 ^ 29 * (n / 2 ^ 32))
  have hmod : n % 2 ^ 32 + 2 ^ 32 * (n / 2 ^ 32) = n := Nat.mod_add_div n (2 ^ 32)
  have hfull : kFramePrefixSize * (2 ^ 29 * (n / 2 ^ 32)) = 2 ^ 32 * (n / 2 ^ 32) := by
    rw [← Nat.mul_assoc]
    rfl
  rw [hfull] at hlen
  refine ⟨List.replicate (n % 2 ^ 32) 0 ++ wire (List.replicate (2 ^ 29 * (n / 2 ^ 32)) []),
    List.replicate (n % 2 ^ 32) 0 :: List.replicate (2 ^ 29 * (n / 2 ^ 32)) [], ?_, ?_, ?_, ?_⟩
  · rw [List.length_append, List.length_replicate, hlen, hmod]
  · intro q hq
    rcases List.mem_cons.mp hq with rfl | hq
    · rw [List.length_replicate]
      exact Nat.mod_le n _
    · rw [List.eq_of_mem_replicate hq]
      exact Nat.zero_le n
  · refine wire_singleton_append ?_
    rw [hlen]
    exact Nat.mul_mod_right _ _
  · intro heq
    have hone := congrArg List.length heq
    rw [List.length_singleton, List.length_cons, List.length_replicate] at hone
    have hpos : 0 < n / 2 ^ 32 := Nat.div_pos h (by decide)
    omega

/-- **Framing is unambiguous as far as the length field goes**: for lists of payloads of
    at most `n` bytes exactly when `n` is below `2^32`. -/
theorem unambiguous_iff (n : Nat) : Unambiguous n ↔ n < 2 ^ 32 := by
  refine ⟨?_, unambiguous_of_lt⟩
  intro h
  by_contra hge
  obtain ⟨p, qs, hp, hqs, hwire, hne⟩ := exists_ambiguous (Nat.le_of_not_lt hge)
  refine hne (h [p] qs ?_ hwire)
  intro q hq
  rcases List.mem_append.mp hq with hq | hq
  · rw [List.mem_singleton.mp hq, hp]
  · exact hqs q hq

/-- A payload of `2^32` bytes that consists of empty frames is encoded as one empty frame
    more. -/
theorem wire_not_injective :
    ¬ ∀ ps qs : List (List UInt8), (∀ p ∈ ps ++ qs, p.length < 2 ^ 64) →
      wire ps = wire qs → ps = qs := by
  intro h
  have hlen := length_wire_replicate (2 ^ 29)
  have heq := h [[] ++ wire (List.replicate (2 ^ 29) [])] ([] :: List.replicate (2 ^ 29) []) ?_
    (wire_singleton_append (by rw [hlen]; rfl))
  · have hone := congrArg List.length heq
    rw [List.length_singleton, List.length_cons, List.length_replicate] at hone
    omega
  · intro p hp
    rcases List.mem_append.mp hp with hp | hp
    · rw [List.mem_singleton.mp hp, List.nil_append, hlen]
      decide
    · rcases List.mem_cons.mp hp with rfl | hp
      · decide
      · rw [List.eq_of_mem_replicate hp]
        decide

end FrameDecoder

end Rdb
