-- SUMMARY: Parsers of byte streams, run on a whole stream or fed in chunks, and why the chunks do not matter.
import Rdb.Lib.Machine

/-!
# Stream parsers

A stream parser looks at the unread rest of a stream and decides: it needs more
input, it fails for good, or it emits a value and consumes a prefix. A decision
other than "more" must not depend on input that has not arrived yet; this is all
that is needed for a reader that is fed in chunks to agree with the parser run
once over the whole stream.
-/

/-- What a parser decides about the unread input. -/
inductive StreamParser.Verdict (φ : Type*) where
  | more
  | fail
  | emit (f : φ) (n : Nat)

/-- A parser of streams over `β` that emits values of `φ`. -/
structure StreamParser (β φ : Type*) where
  decide : List β → StreamParser.Verdict φ
  consumes : ∀ {s f n}, decide s = .emit f n → 0 < n ∧ n ≤ s.length
  emit_stable : ∀ {s f n} (t : List β), decide s = .emit f n → decide (s ++ t) = .emit f n
  fail_stable : ∀ {s} (t : List β), decide s = .fail → decide (s ++ t) = .fail

namespace StreamParser

variable {β φ : Type*} (p : StreamParser β φ)

/-! ## The whole stream -/

/-- Parse a whole stream: the values emitted, and whether it ends in failure. -/
def parse (s : List β) : List φ × Bool :=
  match _h : p.decide s with
  | .more     => ([], false)
  | .fail     => ([], true)
  | .emit f n => (f :: (parse (s.drop n)).1, (parse (s.drop n)).2)
termination_by s.length
decreasing_by
  all_goals
    have := p.consumes ‹p.decide s = _›
    rw [List.length_drop]
    omega

variable {p}

theorem parse_more {s : List β} (h : p.decide s = .more) : p.parse s = ([], false) := by
  unfold parse; split <;> simp_all

theorem parse_fail {s : List β} (h : p.decide s = .fail) : p.parse s = ([], true) := by
  unfold parse; split <;> simp_all

theorem parse_emit {s : List β} {f : φ} {n : Nat} (h : p.decide s = .emit f n) :
    p.parse s = (f :: (p.parse (s.drop n)).1, (p.parse (s.drop n)).2) := by
  rw [parse]; split <;> simp_all

/-! ## Reading in chunks -/

/-- A reader holds the input it has been fed and not consumed. -/
structure Reader (β : Type*) where
  unread : List β
  failed : Bool

/-- What a schedule does to a reader. -/
inductive Op (β : Type*) where
  | feed (chunk : List β)
  | next

/-- A reader that has failed ignores its input. -/
def Reader.feed (r : Reader β) (chunk : List β) : Reader β :=
  if r.failed then r else { r with unread := r.unread ++ chunk }

variable (p) in
/-- Ask for one value. -/
def Reader.next (r : Reader β) : Reader β × Option φ :=
  if r.failed then (r, none)
  else
    match p.decide r.unread with
    | .more     => (r, none)
    | .fail     => ({ r with failed := true }, none)
    | .emit f n => ({ r with unread := r.unread.drop n }, some f)

variable (p) in
/-- The reader as a machine. Its events are the answers of `next`. -/
def reader : Machine (Reader β) (Op β) (Option φ) where
  step r
    | .feed chunk => some (r.feed chunk, [])
    | .next       => some ((r.next p).1, [(r.next p).2])

/-- The input a schedule feeds. -/
def fed : List (Op β) → List β
  | []               => []
  | .feed c :: ops   => c ++ fed ops
  | .next :: ops     => fed ops

@[simp] theorem fed_nil : fed ([] : List (Op β)) = [] := rfl

@[simp] theorem fed_append (ops ops' : List (Op β)) : fed (ops ++ ops') = fed ops ++ fed ops' := by
  induction ops with
  | nil => rfl
  | cons op ops ih => cases op <;> simp [fed, ih]

/-- The values a schedule obtained. -/
def values (tr : List (Option φ)) : List φ := tr.filterMap id

@[simp] theorem values_append (tr tr' : List (Option φ)) :
    values (tr ++ tr') = values tr ++ values tr' := by simp [values]

variable (p) in
/-- How a reader fed with `s` that has emitted `fs` stands to the whole stream:
    whatever comes next, parsing everything is parsing on from here. -/
def Reader.Agrees (r : Reader β) (s : List β) (fs : List φ) : Prop :=
  ∀ t, p.parse (s ++ t) =
    if r.failed then (fs, true)
    else (fs ++ (p.parse (r.unread ++ t)).1, (p.parse (r.unread ++ t)).2)

theorem Reader.Agrees.feed {r : Reader β} {s : List β} {fs : List φ} (h : r.Agrees p s fs)
    (chunk : List β) : (r.feed chunk).Agrees p (s ++ chunk) fs := by
  intro t
  rw [List.append_assoc, h (chunk ++ t)]
  cases hf : r.failed <;> simp [Reader.feed, hf]

theorem Reader.Agrees.next {r : Reader β} {s : List β} {fs : List φ} (h : r.Agrees p s fs) :
    (r.next p).1.Agrees p s (fs ++ values [(r.next p).2]) := by
  intro t
  rw [h t]
  cases hf : r.failed with
  | true => simp [Reader.next, hf, values]
  | false =>
      cases hd : p.decide r.unread with
      | more => simp [Reader.next, hf, hd, values]
      | fail => simp [Reader.next, hf, hd, values, parse_fail (p.fail_stable t hd)]
      | emit f n =>
          have hn := (p.consumes hd).2
          simp [Reader.next, hf, hd, values, parse_emit (p.emit_stable t hd),
            List.drop_append_of_le_length hn]

/-- Along every schedule the reader agrees with the parser on the input fed so
    far. -/
theorem reader_agrees {ops : List (Op β)} {tr : List (Option φ)} {r : Reader β}
    (h : p.reader.Run ⟨[], false⟩ ops tr r) : r.Agrees p (fed ops) (values tr) := by
  induction h with
  | nil => intro t; simp [values]
  | @snoc ops tr evs r r' op _ _ hstep ih =>
      cases op with
      | feed chunk =>
          simp only [reader, Option.some.injEq, Prod.mk.injEq] at hstep
          obtain ⟨rfl, rfl⟩ := hstep
          simpa [fed] using ih.feed chunk
      | next =>
          simp only [reader, Option.some.injEq, Prod.mk.injEq] at hstep
          obtain ⟨rfl, rfl⟩ := hstep
          simpa [fed] using ih.next

/-- A reader whose last `next` gave nothing has read everything there is to
    read. -/
theorem Reader.Agrees.parse_eq {r : Reader β} {s : List β} {fs : List φ} (h : r.Agrees p s fs)
    (hnone : (r.next p).2 = none) : p.parse s = (fs, (r.next p).1.failed) := by
  have hs := h []
  rw [List.append_nil] at hs
  rw [hs]
  cases hf : r.failed with
  | true => simp [Reader.next, hf]
  | false =>
      cases hd : p.decide r.unread with
      | more => simp [Reader.next, hf, hd, parse_more hd]
      | fail => simp [Reader.next, hf, hd, parse_fail hd]
      | emit f n => simp [Reader.next, hf, hd] at hnone

end StreamParser
