-- SUMMARY: The frame decoder refines a stateless parser of the byte stream, and decodes every encoded stream.
import Rdb.Lib.StreamParser
import Rdb.Transport.Framing

/-!
# Frame streams

The decoder of `Rdb.Transport.Framing` against the stream parser that reads
frames off a byte string. The decoder abstracts to a reader (the unread bytes
and the error flag), every call of it is a call of the reader, and a reader does
not see how its input was cut into chunks.
-/

namespace Rdb

namespace FrameDecoder

open StreamParser (Verdict Reader)

/-! ## The reference parser -/

/-- Read one frame off the front of a stream, byte by byte: stop below a whole prefix,
    fail if it does not begin with "FRM1" or its length is too great, stop at an
    incomplete payload. -/
def readFrame (maxFrameBytes : Nat) : List UInt8 → Verdict (List UInt8)
  | m₀ :: m₁ :: m₂ :: m₃ :: l₀ :: l₁ :: l₂ :: l₃ :: rest =>
    let len := l₀.toNat + 2 ^ 8 * l₁.toNat + 2 ^ 16 * l₂.toNat + 2 ^ 24 * l₃.toNat
    if [m₀, m₁, m₂, m₃] ≠ [0x46, 0x52, 0x4D, 0x31] ∨ len > maxFrameBytes then .fail
    else if rest.length < len then .more
    else .emit (rest.take len) (8 + len)
  | _ => .more

/-- The four bytes of a little-endian word. -/
theorem get_four (b₀ b₁ b₂ b₃ : UInt8) (rest : List UInt8) :
    LittleEndian.get 4 (b₀ :: b₁ :: b₂ :: b₃ :: rest) =
      b₀.toNat + 2 ^ 8 * b₁.toNat + 2 ^ 16 * b₂.toNat + 2 ^ 24 * b₃.toNat := by
  simp only [LittleEndian.get_succ, LittleEndian.get_zero, List.getD_cons_zero,
    List.getD_cons_succ]
  omega

/-- The decoder's magic is that of the text. -/
theorem magicAt_eq_iff (m₀ m₁ m₂ m₃ : UInt8) (rest : List UInt8) :
    magicAt (m₀ :: m₁ :: m₂ :: m₃ :: rest) = kFrameMagic ↔
      [m₀, m₁, m₂, m₃] = [0x46, 0x52, 0x4D, 0x31] := by
  have h₀ := m₀.toNat_lt
  have h₁ := m₁.toNat_lt
  have h₂ := m₂.toNat_lt
  have h₃ := m₃.toNat_lt
  simp only [magicAt, get_four, kFrameMagic, List.cons.injEq, and_true, ← UInt8.toNat_inj,
    UInt8.reduceToNat]
  omega

/-- `readFrame` in the decoder's terms. -/
theorem readFrame_eq (max : Nat) (s : List UInt8) :
    readFrame max s =
      if s.length < kFramePrefixSize then .more
      else if magicAt s ≠ kFrameMagic ∨ lenAt s > max then .fail
      else if s.length < kFramePrefixSize + lenAt s then .more
      else .emit ((s.drop kFramePrefixSize).take (lenAt s)) (kFramePrefixSize + lenAt s) := by
  match s with
  | m₀ :: m₁ :: m₂ :: m₃ :: l₀ :: l₁ :: l₂ :: l₃ :: rest =>
      have hlen : lenAt (m₀ :: m₁ :: m₂ :: m₃ :: l₀ :: l₁ :: l₂ :: l₃ :: rest) =
          l₀.toNat + 2 ^ 8 * l₁.toNat + 2 ^ 16 * l₂.toNat + 2 ^ 24 * l₃.toNat :=
        get_four l₀ l₁ l₂ l₃ rest
      have hpre : ¬ (m₀ :: m₁ :: m₂ :: m₃ :: l₀ :: l₁ :: l₂ :: l₃ :: rest).length <
          kFramePrefixSize := by
        simp [kFramePrefixSize]
      have hrest : ∀ len, (m₀ :: m₁ :: m₂ :: m₃ :: l₀ :: l₁ :: l₂ :: l₃ :: rest).length <
          kFramePrefixSize + len ↔ rest.length < len := by
        intro len
        simp only [List.length_cons, kFramePrefixSize]
        omega
      simp only [readFrame, hpre, hlen, hrest, ne_eq, magicAt_eq_iff, if_false]
      rfl
  | [] | [_] | [_, _] | [_, _, _] | [_, _, _, _] | [_, _, _, _, _] | [_, _, _, _, _, _]
  | [_, _, _, _, _, _, _] => rfl

theorem magicAt_append {s : List UInt8} (t : List UInt8) (h : kFramePrefixSize ≤ s.length) :
    magicAt (s ++ t) = magicAt s :=
  LittleEndian.get_append (Nat.le_trans (by decide) h) t

theorem lenAt_append {s : List UInt8} (t : List UInt8) (h : kFramePrefixSize ≤ s.length) :
    lenAt (s ++ t) = lenAt s := by
  have h4 : 4 ≤ (s.drop 4).length := by
    rw [List.length_drop]
    simp only [kFramePrefixSize] at h
    omega
  unfold lenAt
  rw [List.drop_append_of_le_length (Nat.le_trans (by decide) h), LittleEndian.get_append h4]

/-- What `readFrame` needs to have seen to emit. -/
theorem readFrame_eq_emit_iff {max : Nat} {s f : List UInt8} {n : Nat} :
    readFrame max s = .emit f n ↔
      kFramePrefixSize ≤ s.length ∧ magicAt s = kFrameMagic ∧ lenAt s ≤ max ∧
        n = kFramePrefixSize + lenAt s ∧ n ≤ s.length ∧
        f = (s.drop kFramePrefixSize).take (lenAt s) := by
  rw [readFrame_eq]
  split_ifs with hlen hbad hshort
  · simp; omega
  · simp only [false_iff]
    rintro ⟨-, hm, hl, -⟩
    rcases hbad with hbad | hbad
    · exact hbad hm
    · omega
  · simp; omega
  · rw [not_or, not_not] at hbad
    simp only [Verdict.emit.injEq]
    constructor
    · rintro ⟨rfl, rfl⟩
      exact ⟨by omega, hbad.1, by omega, rfl, by omega, rfl⟩
    · rintro ⟨-, -, -, rfl, -, rfl⟩
      exact ⟨rfl, rfl⟩

theorem readFrame_eq_fail_iff {max : Nat} {s : List UInt8} :
    readFrame max s = .fail ↔
      kFramePrefixSize ≤ s.length ∧ (magicAt s ≠ kFrameMagic ∨ lenAt s > max) := by
  rw [readFrame_eq]
  split_ifs with hlen hbad hshort
  · simp; omega
  · simp only [true_iff]
    exact ⟨by omega, hbad⟩
  · simp [hbad]
  · simp [hbad]

/-- The stream parser of frames. Once a prefix is complete its verdict is final,
    and so is an emitted payload. -/
def frameParser (maxFrameBytes : Nat) : StreamParser UInt8 (List UInt8) where
  decide := readFrame maxFrameBytes
  consumes h := by
    obtain ⟨-, -, -, rfl, hn, -⟩ := readFrame_eq_emit_iff.mp h
    exact ⟨Nat.lt_of_lt_of_le (by decide) (Nat.le_add_right _ _), hn⟩
  emit_stable {s} _ _ t h := by
    obtain ⟨hs, hm, hl, rfl, hn, rfl⟩ := readFrame_eq_emit_iff.mp h
    have hpay : lenAt s ≤ (s.drop kFramePrefixSize).length := by
      rw [List.length_drop]
      omega
    rw [readFrame_eq_emit_iff, magicAt_append t hs, lenAt_append t hs, List.length_append,
      List.drop_append_of_le_length hs, List.take_append_of_le_length hpay]
    exact ⟨by omega, hm, hl, rfl, by omega, rfl⟩
  fail_stable t h := by
    obtain ⟨hs, hbad⟩ := readFrame_eq_fail_iff.mp h
    rw [readFrame_eq_fail_iff, magicAt_append t hs, lenAt_append t hs, List.length_append]
    exact ⟨by omega, hbad⟩

/-- The reference parser on a whole byte string: the frames, and whether it
    fails. -/
def parseFrames (maxFrameBytes : Nat) (s : List UInt8) : List (List UInt8) × Bool :=
  (frameParser maxFrameBytes).parse s

/-! ## The decoder is a reader -/

/-- Forget how the unread bytes are stored. -/
def toReader (d : FrameDecoder) : Reader UInt8 := ⟨d.unread, d.error⟩

theorem toReader_feed (d : FrameDecoder) (data : List UInt8) :
    (d.feed data).toReader = d.toReader.feed data := by
  cases h : d.error with
  | true => simp [toReader, Reader.feed, feed_of_error data h, h]
  | false =>
      have he : (d.feed data).error = false := by simp [feed, h]
      simp [toReader, Reader.feed, unread_feed data h, h, he]

@[simp] theorem feed_maxFrameBytes (d : FrameDecoder) (data : List UInt8) :
    (d.feed data).maxFrameBytes = d.maxFrameBytes := by
  unfold feed; split <;> rfl

/-- The cases of `next`, read off the unread bytes. -/
theorem next_cases (d : FrameDecoder) (out : List UInt8) :
    (d.error = true ∧ d.next out = (d, false, out)) ∨
    (d.error = false ∧ readFrame d.maxFrameBytes d.unread = .more ∧
      d.next out = (d.compact, false, out)) ∨
    (d.error = false ∧ readFrame d.maxFrameBytes d.unread = .fail ∧
      d.next out = ({ d with error := true }, false, out)) ∨
    (d.error = false ∧ ∃ f n d', readFrame d.maxFrameBytes d.unread = .emit f n ∧
      d.next out = (d', true, f) ∧ d'.unread = d.unread.drop n ∧ d'.error = false ∧
      d'.frames = d.frames + 1 ∧ d'.maxFrameBytes = d.maxFrameBytes) := by
  have hlen : d.unread.length = d.buffer.length - d.head := by simp [unread]
  unfold next
  split
  · rename_i he; exact .inl ⟨he, rfl⟩
  rename_i he
  rw [Bool.not_eq_true] at he
  split
  · exact .inr (.inl ⟨he, by simp [readFrame_eq, *], rfl⟩)
  rename_i hpre
  simp only
  split
  · rename_i hm
    exact .inr (.inr (.inl ⟨he, readFrame_eq_fail_iff.mpr ⟨by omega, .inl hm⟩, rfl⟩))
  rename_i hm
  rw [not_not] at hm
  split
  · rename_i hl
    exact .inr (.inr (.inl ⟨he, readFrame_eq_fail_iff.mpr ⟨by omega, .inr hl⟩, rfl⟩))
  rename_i hl
  split
  · rename_i hshort
    exact .inr (.inl ⟨he, by simp [readFrame_eq, hlen, hm, hl, hshort, hpre], rfl⟩)
  · rename_i hfull
    have hpay : (d.unread.take (kFramePrefixSize + lenAt d.unread)).drop kFramePrefixSize =
        (d.unread.drop kFramePrefixSize).take (lenAt d.unread) := by
      rw [List.drop_take, Nat.add_sub_cancel_left]
    exact .inr (.inr (.inr ⟨he, _, _, _,
      readFrame_eq_emit_iff.mpr ⟨by omega, hm, by omega, rfl, by omega, rfl⟩,
      by rw [hpay], by simp, by simpa [advance] using he, by simp [advance], by simp [advance]⟩))

/-- A call of `next` is a call of the reader's `next`. -/
theorem toReader_next (d : FrameDecoder) (out : List UInt8) :
    (d.next out).1.toReader = (d.toReader.next (frameParser d.maxFrameBytes)).1 ∧
    (Answer.returned (d.next out).2.1 (d.next out).2.2).frame? =
      (d.toReader.next (frameParser d.maxFrameBytes)).2 ∧
    (d.next out).1.maxFrameBytes = d.maxFrameBytes := by
  rcases next_cases d out with ⟨he, hn⟩ | ⟨he, hr, hn⟩ | ⟨he, hr, hn⟩ |
      ⟨he, f, n, d', hr, hn, hu, he', -, hmax⟩
  · simp [hn, toReader, Reader.next, he, Answer.frame?]
  · simp [hn, toReader, Reader.next, he, Answer.frame?, frameParser, hr]
  · simp [hn, toReader, Reader.next, he, Answer.frame?, frameParser, hr]
  · simp [hn, toReader, Reader.next, he, Answer.frame?, frameParser, hr, hu, he', hmax]

/-- Where the reader has nothing to return, `next` returns false. -/
theorem next_false_of_reader {d : FrameDecoder} (out : List UInt8)
    (h : (d.toReader.next (frameParser d.maxFrameBytes)).2 = none) : (d.next out).2.1 = false := by
  have hframe := (toReader_next d out).2.1
  rw [h] at hframe
  cases hb : (d.next out).2.1 with
  | false => rfl
  | true => simp [hb, Answer.frame?] at hframe

/-! ## Schedules -/

/-- The reader's view of a call. A schedule of `feed` and `next` calls never
    reaches the last case. -/
def Call.toOp : Call → StreamParser.Op UInt8
  | .feed data => .feed data
  | .next _    => .next
  | .reset     => .next

theorem fed_toOp (cs : List Call) : StreamParser.fed (cs.map Call.toOp) = fed cs := by
  induction cs with
  | nil => rfl
  | cons c cs ih => cases c <;> simp [Call.toOp, StreamParser.fed, fed, ih]

theorem values_frame? (tr : List Answer) :
    StreamParser.values (tr.map Answer.frame?) = framesOf tr := by
  simp [StreamParser.values, framesOf, List.filterMap_map]

/-- A run of `feed` and `next` calls is a run of the reader. -/
theorem toReader_run {d₀ d : FrameDecoder} {cs : List Call} {tr : List Answer}
    (h : machine.Run d₀ cs tr d) (hcs : Call.reset ∉ cs) :
    (frameParser d₀.maxFrameBytes).reader.Run d₀.toReader (cs.map Call.toOp)
      (tr.map Answer.frame?) d.toReader ∧ d.maxFrameBytes = d₀.maxFrameBytes := by
  induction h with
  | nil => exact ⟨.nil, rfl⟩
  | @snoc cs tr evs d d' c _ _ hstep ih =>
      simp only [List.mem_append, List.mem_singleton, not_or] at hcs
      obtain ⟨hrun, hmax⟩ := ih hcs.1
      rw [List.map_append, List.map_append]
      cases c with
      | feed data =>
          simp only [machine, Option.some.injEq, Prod.mk.injEq] at hstep
          obtain ⟨rfl, rfl⟩ := hstep
          refine ⟨hrun.snoc ?_, by simpa using hmax⟩
          simp [StreamParser.reader, Call.toOp, toReader_feed]
      | next out =>
          simp only [machine, Option.some.injEq, Prod.mk.injEq] at hstep
          obtain ⟨rfl, rfl⟩ := hstep
          obtain ⟨hd, hans, hmax'⟩ := toReader_next d out
          refine ⟨hrun.snoc ?_, hmax'.trans hmax⟩
          rw [hmax] at hd hans
          simp [StreamParser.reader, Call.toOp, hd, hans]
      | reset => exact absurd rfl hcs.2

/-- A decoder that was just made, or just reset. -/
def Fresh (d : FrameDecoder) : Prop :=
  (∃ max, d = new max) ∨ ∃ d' : FrameDecoder, d = d'.reset

theorem Fresh.toReader_eq {d : FrameDecoder} (h : d.Fresh) : d.toReader = ⟨[], false⟩ := by
  rcases h with ⟨max, rfl⟩ | ⟨d', rfl⟩ <;> rfl

/-- Along every schedule the decoder stands to the parser as a reader does. -/
theorem agrees_of_run {d₀ d : FrameDecoder} {cs : List Call} {tr : List Answer} (h₀ : d₀.Fresh)
    (h : machine.Run d₀ cs tr d) (hcs : Call.reset ∉ cs) :
    d.toReader.Agrees (frameParser d₀.maxFrameBytes) (fed cs) (framesOf tr) := by
  have hrun := (toReader_run h hcs).1
  rw [h₀.toReader_eq] at hrun
  have hagree := StreamParser.reader_agrees hrun
  rwa [fed_toOp, values_frame?] at hagree

/-- A schedule of `feed` and `next` calls that ends with a `next` that returned
    false. -/
structure Drained (d₀ : FrameDecoder) (cs : List Call) (tr : List Answer) (d : FrameDecoder) :
    Prop where
  run : machine.Run d₀ cs tr d
  calls : Call.reset ∉ cs
  lastCall : ∃ out, cs.getLast? = some (.next out)
  lastAnswer : ∃ out, tr.getLast? = some (.returned false out)

theorem parse_eq_of_drained {d₀ d : FrameDecoder} {cs : List Call} {tr : List Answer}
    (h₀ : d₀.Fresh) (h : Drained d₀ cs tr d) :
    (framesOf tr, d.error) = parseFrames d₀.maxFrameBytes (fed cs) := by
  obtain ⟨out, hlast⟩ := h.lastCall
  obtain ⟨cs, rfl⟩ := List.getLast?_eq_some_iff.mp hlast
  have hcs : Call.reset ∉ cs := fun hmem => h.calls (List.mem_append_left _ hmem)
  obtain ⟨tr, evs, d₁, hrun, -, hstep, rfl⟩ := h.run.snoc_inv
  simp only [machine, Option.some.injEq, Prod.mk.injEq] at hstep
  obtain ⟨rfl, rfl⟩ := hstep
  obtain ⟨out', hans⟩ := h.lastAnswer
  simp only [List.getLast?_append, List.getLast?_singleton, Option.some_or, Option.some.injEq,
    Answer.returned.injEq] at hans
  have hfalse := hans.1
  obtain ⟨hd, hframe, -⟩ := toReader_next d₁ out
  have hmax := (toReader_run hrun hcs).2
  rw [hfalse, hmax] at hframe
  rw [hmax] at hd
  have hparse := (agrees_of_run h₀ hrun hcs).parse_eq hframe.symm
  rw [← hd] at hparse
  simp only [parseFrames, fed_append, fed, List.append_nil, framesOf_append, hparse]
  simp [hfalse, toReader]

/-- A `next` that returns false leaves `out` and the unread bytes alone. -/
theorem next_false {d : FrameDecoder} {out : List UInt8} (h : (d.next out).2.1 = false) :
    (d.next out).2.2 = out ∧ (d.next out).1.unread = d.unread := by
  rcases next_cases d out with ⟨-, hn⟩ | ⟨-, -, hn⟩ | ⟨-, -, hn⟩ | ⟨-, f, n, d', -, hn, -⟩ <;>
    simp_all

/-- After an error, nothing but `reset` has an effect. -/
theorem run_of_error {d d' : FrameDecoder} {cs : List Call} {tr : List Answer}
    (he : d.error = true) (hcs : Call.reset ∉ cs) (h : machine.Run d cs tr d') :
    d' = d ∧ framesOf tr = [] := by
  induction h with
  | nil => exact ⟨rfl, rfl⟩
  | @snoc cs tr evs d₁ d₂ c _ _ hstep ih =>
      simp only [List.mem_append, List.mem_singleton, not_or] at hcs
      obtain ⟨rfl, hnone⟩ := ih hcs.1
      cases c with
      | feed data =>
          simp only [machine, Option.some.injEq, Prod.mk.injEq] at hstep
          obtain ⟨rfl, rfl⟩ := hstep
          simp [feed_of_error data he, hnone]
      | next out =>
          simp only [machine, Option.some.injEq, Prod.mk.injEq] at hstep
          obtain ⟨rfl, rfl⟩ := hstep
          have hn : d₁.next out = (d₁, false, out) := by simp [next, he]
          simp [hn, hnone]
      | reset => exact absurd rfl hcs.2

/-- Calling `next` again and again returns false at some point: each frame
    takes at least its prefix off the unread bytes. -/
theorem exists_next_false (d : FrameDecoder) :
    ∃ (outs : List (List UInt8)) (tr : List Answer) (d' : FrameDecoder),
      machine.Run d (outs.map Call.next) tr d' ∧ ∀ out, (d'.next out).2.1 = false := by
  induction hn : d.unread.length using Nat.strong_induction_on generalizing d with
  | _ n ih =>
      subst hn
      rcases next_cases d [] with ⟨he, -⟩ | ⟨he, hr, -⟩ | ⟨he, hr, -⟩ |
          ⟨-, f, k, d', hr, hn, hu, -⟩
      · exact ⟨[], [], d, .nil, fun out => by simp [next, he]⟩
      · refine ⟨[], [], d, .nil, fun out => next_false_of_reader out ?_⟩
        simp [toReader, Reader.next, he, frameParser, hr]
      · refine ⟨[], [], d, .nil, fun out => next_false_of_reader out ?_⟩
        simp [toReader, Reader.next, he, frameParser, hr]
      · have hpos := (frameParser d.maxFrameBytes).consumes (s := d.unread) hr
        have hlt : d'.unread.length < d.unread.length := by
          rw [hu, List.length_drop]
          omega
        obtain ⟨outs, tr, d'', hrun, hfalse⟩ := ih _ hlt d' rfl
        have hstep : machine.step d (.next []) = some (d', [.returned true f]) := by
          simp [machine, hn]
        exact ⟨[] :: outs, _, d'', Machine.Run.cons hstep hrun, hfalse⟩

/-- Every schedule is drained by more calls of `next`. -/
theorem exists_drained {d₀ d : FrameDecoder} {cs : List Call} {tr : List Answer}
    (h : machine.Run d₀ cs tr d) (hcs : Call.reset ∉ cs) :
    ∃ (outs : List (List UInt8)) (tr' : List Answer) (d' : FrameDecoder),
      Drained d₀ (cs ++ outs.map Call.next) (tr ++ tr') d' := by
  obtain ⟨outs, tr', d', hrun, hfalse⟩ := exists_next_false d
  have hlast : machine.step d' (.next []) =
      some ((d'.next []).1, [.returned false (d'.next []).2.2]) := by
    simp [machine, hfalse]
  refine ⟨outs ++ [[]], tr' ++ [.returned false (d'.next []).2.2], (d'.next []).1, ?_, ?_,
    ⟨[], ?_⟩, ⟨(d'.next []).2.2, ?_⟩⟩
  · rw [List.map_append, ← List.append_assoc, ← List.append_assoc]
    exact (h.append hrun).snoc hlast
  · simpa using hcs
  · simp [← List.append_assoc]
  · simp [← List.append_assoc]

/-- **The decoder refines the stateless parser.** Whatever the bytes and however
    they are cut and interleaved with `next`, a drained schedule yields the
    frames and the error flag of the parser; so the schedule does not matter. A
    `next` that returns false consumes nothing, and an error lasts until
    `reset`. Every schedule can be drained. -/
theorem refines_parseFrames :
    (∀ d₀ cs tr d, d₀.Fresh → Drained d₀ cs tr d →
      (framesOf tr, d.error) = parseFrames d₀.maxFrameBytes (fed cs)) ∧
    (∀ d₀ cs tr d d₀' cs' tr' d', d₀.Fresh → d₀'.Fresh →
      d₀.maxFrameBytes = d₀'.maxFrameBytes → Drained d₀ cs tr d → Drained d₀' cs' tr' d' →
      fed cs = fed cs' → framesOf tr = framesOf tr' ∧ d.error = d'.error) ∧
    (∀ (d : FrameDecoder) out, (d.next out).2.1 = false →
      (d.next out).2.2 = out ∧ (d.next out).1.unread = d.unread ∧
        (d.next out).1.buffered = d.buffered) ∧
    (∀ (d : FrameDecoder) cs tr d', d.error = true → Call.reset ∉ cs →
      machine.Run d cs tr d' →
      d'.buffered = d.buffered ∧ framesOf tr = [] ∧ d'.error = true) ∧
    ∀ d₀ cs tr d, machine.Run d₀ cs tr d → Call.reset ∉ cs →
      ∃ (outs : List (List UInt8)) (tr' : List Answer) (d' : FrameDecoder),
        Drained d₀ (cs ++ outs.map Call.next) (tr ++ tr') d' := by
  refine ⟨fun d₀ cs tr d h₀ h => parse_eq_of_drained h₀ h, ?_, ?_, ?_,
    fun d₀ cs tr d h hcs => exists_drained h hcs⟩
  · intro d₀ cs tr d d₀' cs' tr' d' h₀ h₀' hmax h h' hfed
    have heq := parse_eq_of_drained h₀ h
    rw [hmax, hfed, ← parse_eq_of_drained h₀' h'] at heq
    exact Prod.mk.inj heq
  · intro d out h
    obtain ⟨hout, hu⟩ := next_false h
    exact ⟨hout, hu, by rw [← length_unread, hu, length_unread]⟩
  · intro d cs tr d' he hcs h
    obtain ⟨rfl, hnone⟩ := run_of_error he hcs h
    exact ⟨rfl, hnone, he⟩

/-- A frame, cut inside its length field, and then a wrong magic: one payload is handed
    out before the error, as the parser says. -/
theorem refines_parseFrames_bad_magic :
    ∃ tr d, Drained (new 4) [.feed [0x46, 0x52, 0x4D, 0x31, 2, 0], .next [],
        .feed [0, 0, 8, 9, 1, 2, 3, 4, 5, 6, 7, 8], .next [], .next []] tr d ∧
      framesOf tr = [[8, 9]] ∧ d.error = true ∧
      ([[8, 9]], true) =
        parseFrames 4 [0x46, 0x52, 0x4D, 0x31, 2, 0, 0, 0, 8, 9, 1, 2, 3, 4, 5, 6, 7, 8] := by
  have hrun : machine.Run (new 4) [.feed [0x46, 0x52, 0x4D, 0x31, 2, 0], .next [],
      .feed [0, 0, 8, 9, 1, 2, 3, 4, 5, 6, 7, 8], .next [], .next []] _ _ := .of_exec rfl
  have hdrained : Drained (new 4) _ _ _ := ⟨hrun, by decide, ⟨[], rfl⟩, ⟨[], by decide⟩⟩
  exact ⟨_, _, hdrained, by decide, by decide,
    refines_parseFrames.1 _ _ _ _ (.inl ⟨4, rfl⟩) hdrained⟩

/-! ## Encoded streams -/

/-- The frames of `payloads`, one after the other. -/
def wire (payloads : List (List UInt8)) : List UInt8 := payloads.flatMap encodeFrame

@[simp] theorem wire_nil : wire [] = [] := rfl

@[simp] theorem wire_cons (p : List UInt8) (ps : List (List UInt8)) :
    wire (p :: ps) = encodeFrame p ++ wire ps := rfl

@[simp] theorem wire_append (ps qs : List (List UInt8)) : wire (ps ++ qs) = wire ps ++ wire qs := by
  simp [wire]

theorem length_encodeFrame (payload : List UInt8) :
    (encodeFrame payload).length = kFramePrefixSize + payload.length := by
  simp [encodeFrame, encodeFrameTo, kFramePrefixSize]
  omega

theorem magicAt_encodeFrame (payload rest : List UInt8) :
    magicAt (encodeFrame payload ++ rest) = kFrameMagic := by
  simp only [magicAt, encodeFrame, encodeFrameTo, List.nil_append, List.append_assoc]
  exact LittleEndian.get_put (by decide) _

theorem lenAt_encodeFrame (payload rest : List UInt8) :
    lenAt (encodeFrame payload ++ rest) = payload.length % 2 ^ 32 := by
  simp only [lenAt, encodeFrame, encodeFrameTo, List.nil_append, List.append_assoc]
  rw [List.drop_left' (LittleEndian.length_put 4 _)]
  exact LittleEndian.get_put (Nat.mod_lt _ (by decide)) _

/-- Reading the front of an encoded stream gives its first payload. -/
theorem readFrame_encodeFrame {max : Nat} {payload : List UInt8} (rest : List UInt8)
    (hmax : max < 2 ^ 32) (hlen : payload.length ≤ max) :
    readFrame max (encodeFrame payload ++ rest) =
      .emit payload (kFramePrefixSize + payload.length) := by
  have hl : lenAt (encodeFrame payload ++ rest) = payload.length := by
    rw [lenAt_encodeFrame, Nat.mod_eq_of_lt (by omega)]
  have hpay : (encodeFrame payload ++ rest).drop kFramePrefixSize = payload ++ rest := by
    simp only [encodeFrame, encodeFrameTo, List.nil_append, List.append_assoc]
    rw [← List.append_assoc, List.drop_left' (by simp [kFramePrefixSize])]
  rw [readFrame_eq_emit_iff, magicAt_encodeFrame, hl, List.length_append, length_encodeFrame, hpay,
    List.take_left]
  exact ⟨by omega, rfl, hlen, rfl, by omega, rfl⟩

theorem parseFrames_wire {max : Nat} {payloads : List (List UInt8)} (hmax : max < 2 ^ 32)
    (hlen : ∀ p ∈ payloads, p.length ≤ max) :
    parseFrames max (wire payloads) = (payloads, false) := by
  induction payloads with
  | nil => exact StreamParser.parse_more (by simp [frameParser, readFrame])
  | cons p ps ih =>
      have hemit : (frameParser max).decide (encodeFrame p ++ wire ps) =
          .emit p (kFramePrefixSize + p.length) :=
        readFrame_encodeFrame (wire ps) hmax (hlen p (by simp))
      have htail := ih fun q hq => hlen q (by simp [hq])
      unfold parseFrames at htail ⊢
      rw [wire_cons, StreamParser.parse_emit hemit,
        List.drop_left' (length_encodeFrame p), htail]

/-- A frame that is emitted was encoded: the bytes consumed are its encoding. -/
theorem eq_encodeFrame_of_emit {max : Nat} {s f : List UInt8} {n : Nat}
    (h : readFrame max s = .emit f n) : s = encodeFrame f ++ s.drop n := by
  obtain ⟨hs, hm, -, rfl, hn, rfl⟩ := readFrame_eq_emit_iff.mp h
  have hpre : 4 ≤ s.length := Nat.le_trans (by decide) hs
  have hlen : ((s.drop kFramePrefixSize).take (lenAt s)).length = lenAt s := by
    rw [List.length_take, List.length_drop]
    omega
  have hmagic : LittleEndian.put 4 kFrameMagic = s.take 4 := by
    rw [← hm]
    exact LittleEndian.put_get hpre
  have hsize : LittleEndian.put 4 (lenAt s % 2 ^ 32) = (s.drop 4).take 4 := by
    rw [Nat.mod_eq_of_lt (show lenAt s < 2 ^ 32 from LittleEndian.get_lt 4 _)]
    refine LittleEndian.put_get ?_
    rw [List.length_drop]
    simp only [kFramePrefixSize] at hs
    omega
  calc s = s.take 4 ++ ((s.drop 4).take 4 ++ s.drop 8) := by
        rw [show s.drop 8 = (s.drop 4).drop 4 by rw [List.drop_drop], List.take_append_drop,
          List.take_append_drop]
    _ = s.take 4 ++ ((s.drop 4).take 4 ++
          ((s.drop 8).take (lenAt s) ++ s.drop (8 + lenAt s))) := by
        rw [← List.drop_drop, List.take_append_drop]
    _ = _ := by
        rw [encodeFrame, encodeFrameTo, hlen, hmagic, hsize]
        simp only [List.nil_append, List.append_assoc, kFramePrefixSize]

/-- Until an error, the bytes fed are the frames handed out, encoded again, and
    the unread rest; and the frame counter counts them. -/
theorem fed_eq_wire_append_unread {d₀ d : FrameDecoder} {cs : List Call} {tr : List Answer}
    (h₀ : d₀.Fresh) (h : machine.Run d₀ cs tr d) (hcs : Call.reset ∉ cs) :
    d.frames = d₀.frames + (framesOf tr).length ∧
      (d.error = false → fed cs = wire (framesOf tr) ++ d.unread) := by
  induction h with
  | nil => exact ⟨rfl, fun _ => by rcases h₀ with ⟨max, rfl⟩ | ⟨d', rfl⟩ <;> rfl⟩
  | @snoc cs tr evs d _ c _ _ hstep ih =>
      simp only [List.mem_append, List.mem_singleton, not_or] at hcs
      obtain ⟨hframes, hfed⟩ := ih hcs.1
      cases c with
      | feed data =>
          simp only [machine, Option.some.injEq, Prod.mk.injEq] at hstep
          obtain ⟨rfl, rfl⟩ := hstep
          cases he : d.error with
          | true => simp [feed_of_error data he, he, hframes]
          | false =>
              have hf : (d.feed data).frames = d.frames := by simp [feed, he]
              simp [hf, hframes, hfed he, unread_feed data he, fed]
      | next out =>
          simp only [machine, Option.some.injEq, Prod.mk.injEq] at hstep
          obtain ⟨rfl, rfl⟩ := hstep
          rcases next_cases d out with ⟨he, hn⟩ | ⟨he, -, hn⟩ | ⟨he, -, hn⟩ |
              ⟨he, f, n, d', hr, hn, hu, -, hf, -⟩
          · simp [hn, he, hframes]
          · simp [hn, he, hfed he, hframes, fed]
          · simp [hn, hframes]
          · simp only [hn, hf, hframes, framesOf_append, framesOf_true, hu, fed_append, fed,
              hfed he]
            refine ⟨by simp; omega, fun _ => ?_⟩
            simpa using eq_encodeFrame_of_emit hr
      | reset => exact absurd rfl hcs.2

section RoundTrip

variable {max : Nat} {payloads : List (List UInt8)} {cs : List Call} {tr : List Answer}
  {d : FrameDecoder}

/-- Parsing everything, fed or not yet, is parsing on from the decoder's state;
    so what it handed out is a prefix of the payloads. -/
theorem framesOf_prefix_of_wire (hmax : max < 2 ^ 32) (hlen : ∀ p ∈ payloads, p.length ≤ max)
    (hcs : Call.reset ∉ cs) {more : List UInt8} (hfed : fed cs ++ more = wire payloads)
    (h : machine.Run (new max) cs tr d) : framesOf tr <+: payloads ∧ d.error = false := by
  have hagree := agrees_of_run (.inl ⟨max, rfl⟩) h hcs more
  change parseFrames max (fed cs ++ more) = _ at hagree
  rw [hfed, parseFrames_wire hmax hlen] at hagree
  cases he : d.error with
  | true => simp [toReader, he] at hagree
  | false =>
      simp only [toReader, he, Bool.false_eq_true, if_false, Prod.mk.injEq] at hagree
      exact ⟨⟨_, hagree.1.symm⟩, rfl⟩

/-- With everything fed, `next` returns false only after the last payload. -/
theorem framesOf_eq_of_next_false (hmax : max < 2 ^ 32) (hlen : ∀ p ∈ payloads, p.length ≤ max)
    (hcs : Call.reset ∉ cs) (hfed : fed cs = wire payloads) (h : machine.Run (new max) cs tr d)
    {out : List UInt8} (hfalse : (d.next out).2.1 = false) : framesOf tr = payloads := by
  have hframe := (toReader_next d out).2.1
  rw [hfalse, (toReader_run h hcs).2] at hframe
  have hparse := (agrees_of_run (.inl ⟨max, rfl⟩) h hcs).parse_eq hframe.symm
  change parseFrames max (fed cs) = _ at hparse
  rw [hfed, parseFrames_wire hmax hlen] at hparse
  exact (Prod.mk.inj hparse).1.symm

/-- **Round trip under any schedule.** Feed the encoding of `payloads` in chunks
    of any sizes and call `next` at any moment: the frames obtained are always a
    prefix of `payloads` and there is no error, and once everything is fed and
    a `next` has returned false, all of them have been obtained and nothing is
    left. -/
theorem decode_wire (hmax : max < 2 ^ 32) (hlen : ∀ p ∈ payloads, p.length ≤ max)
    {rest : List Call} (hcs : Call.reset ∉ cs) (hfed : fed (cs ++ rest) = wire payloads)
    (h : machine.Run (new max) cs tr d) :
    framesOf tr <+: payloads ∧ d.error = false ∧
    ∀ cs₁ tr₁ d₁ cs₂ tr₂, cs = cs₁ ++ cs₂ → tr = tr₁ ++ tr₂ →
      machine.Run (new max) cs₁ tr₁ d₁ → machine.Run d₁ cs₂ tr₂ d →
      fed cs₁ = wire payloads → (∃ out, Answer.returned false out ∈ tr₂) →
      framesOf tr = payloads ∧ d.buffered = 0 ∧ d.framesDecoded = payloads.length := by
  rw [fed_append] at hfed
  obtain ⟨hpre, herr⟩ := framesOf_prefix_of_wire hmax hlen hcs hfed h
  refine ⟨hpre, herr, ?_⟩
  rintro cs₁ tr₁ d₁ cs₂ tr₂ rfl rfl h₁ h₂ hall ⟨out, hout⟩
  -- `cs₁` has fed everything, so nothing is left for `cs₂` to feed.
  have hnone : fed cs₂ = [] := by
    rw [fed_append, hall, List.append_assoc, List.append_right_eq_self] at hfed
    exact (List.append_eq_nil_iff.mp hfed).1
  -- The step that returned false: by then all payloads had been obtained.
  obtain ⟨bs, c, bs', tr₃, evs, tr₄, e, e', rfl, rfl, hrun, hstep, hmem, -⟩ :=
    h₂.exists_step_of_mem hout
  have hdone : framesOf (tr₁ ++ tr₃) = payloads := by
    cases c with
    | feed data =>
        obtain ⟨-, rfl⟩ : e.feed data = e' ∧ [] = evs := by simpa [machine] using hstep
        simp at hmem
    | reset =>
        obtain ⟨-, rfl⟩ : e.reset = e' ∧ [] = evs := by simpa [machine] using hstep
        simp at hmem
    | next o =>
        simp only [machine, Option.some.injEq, Prod.mk.injEq] at hstep
        rw [← hstep.2, List.mem_singleton, Answer.returned.injEq] at hmem
        refine framesOf_eq_of_next_false hmax hlen (fun hm => hcs ?_) ?_ (h₁.append hrun)
          hmem.1.symm
        · rw [← List.append_assoc]
          exact List.mem_append_left _ hm
        · rw [fed_append] at hnone
          rw [fed_append, hall, (List.append_eq_nil_iff.mp hnone).1, List.append_nil]
  have hframes : framesOf (tr₁ ++ (tr₃ ++ (evs ++ tr₄))) = payloads := by
    refine hpre.eq_of_length_le ?_
    rw [← hdone]
    simp only [framesOf_append, List.length_append]
    omega
  obtain ⟨hcount, hunread⟩ := fed_eq_wire_append_unread (.inl ⟨max, rfl⟩) h hcs
  rw [hframes] at hcount hunread
  refine ⟨hframes, ?_, by simpa [framesDecoded, new] using hcount⟩
  have hempty := hunread herr
  rw [fed_append, hall, hnone, List.append_nil, List.self_eq_append_right] at hempty
  rw [← length_unread, hempty]
  rfl

/-- Two frames, the first cut inside its length field, asked for too early. -/
theorem decode_wire_cut_prefix :
    ∃ tr d, machine.Run (new 8) [.feed ((wire [[1, 2], []]).take 5), .next [7],
        .feed ((wire [[1, 2], []]).drop 5), .next [], .next [], .next []] tr d ∧
      framesOf tr = [[1, 2], []] ∧ d.buffered = 0 ∧ d.framesDecoded = 2 := by
  let d := (((new 8).feed ((wire [[1, 2], []]).take 5)).next [7]).1.feed
    ((wire [[1, 2], []]).drop 5)
  have hrun : machine.Run (new 8) [.feed ((wire [[1, 2], []]).take 5), .next [7],
      .feed ((wire [[1, 2], []]).drop 5)] _ d := .of_exec rfl
  have hrest : machine.Run d [.next [], .next [], .next []] _ _ := .of_exec rfl
  refine ⟨_, _, hrun.append hrest, ?_⟩
  exact (@decode_wire 8 [[1, 2], []] _ _ _ (by decide) (by decide) [] (by decide) (by decide)
    (hrun.append hrest)).2.2 _ _ _ _ _ rfl rfl hrun hrest (by decide) ⟨[], by decide⟩

end RoundTrip

end FrameDecoder

end Rdb
