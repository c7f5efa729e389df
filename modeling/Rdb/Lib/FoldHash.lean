-- SUMMARY: Hashes computed by a fold over the letters, and the edits that always change them.
import Mathlib.Data.List.Basic
import Mathlib.Logic.Function.Basic

/-!
# Fold hashes

A hash that reads its input letter by letter is a fold. When no step forgets the state,
what follows an edit cannot undo it, so an edit within a window is detected as soon as
the window alone separates its contents from every state.
-/

namespace FoldHash

variable {σ α : Type*}

/-- No letter forgets the state. -/
def KeepsState (f : σ → α → σ) : Prop := ∀ a, Function.Injective fun s => f s a

theorem KeepsState.foldl_injective {f : σ → α → σ} (hf : KeepsState f) (l : List α) :
    Function.Injective fun s => l.foldl f s := by
  induction l with
  | nil => exact fun _ _ h => h
  | cons a l ih => exact fun s s' h => hf a (ih h)

/-- Different words of one length, at most `n`, lead from one state to different ones. -/
def Separates (f : σ → α → σ) (n : Nat) : Prop :=
  ∀ (s : σ) (u v : List α), u.length = v.length → u.length ≤ n →
    u.foldl f s = v.foldl f s → u = v

/-- Around a separated window stands any text: nothing before it makes it blind, and
    nothing after it forgets the difference. -/
theorem Separates.append_inj {f : σ → α → σ} {n : Nat} (hsep : Separates f n)
    (hf : KeepsState f) {pre u v suf : List α} (hlen : u.length = v.length) (hn : u.length ≤ n)
    {s : σ} (h : (pre ++ (u ++ suf)).foldl f s = (pre ++ (v ++ suf)).foldl f s) : u = v := by
  simp only [List.foldl_append] at h
  exact hsep _ u v hlen hn (hf.foldl_injective suf h)

/-- Two lists of one length that agree outside a window, cut there. -/
theorem exists_window {a b : List α} {i n : Nat} (hlen : a.length = b.length)
    (hwin : ∀ j, a[j]? ≠ b[j]? → i ≤ j ∧ j < i + n) :
    ∃ pre u v suf, a = pre ++ (u ++ suf) ∧ b = pre ++ (v ++ suf) ∧
      u.length = v.length ∧ u.length ≤ n := by
  have hpre : a.take i = b.take i := by
    apply List.ext_getElem?
    intro j
    rw [List.getElem?_take, List.getElem?_take]
    split_ifs with hj
    · by_contra hne
      have hij := (hwin j hne).1
      omega
    · rfl
  have hsuf : a.drop (i + n) = b.drop (i + n) := by
    apply List.ext_getElem?
    intro j
    rw [List.getElem?_drop, List.getElem?_drop]
    by_contra hne
    have hjn := (hwin _ hne).2
    omega
  have hcut (l : List α) : l = l.take i ++ ((l.drop i).take n ++ l.drop (i + n)) := by
    rw [← List.drop_drop, List.take_append_drop, List.take_append_drop]
  refine ⟨a.take i, (a.drop i).take n, (b.drop i).take n, a.drop (i + n), hcut a, ?_, ?_, ?_⟩
  · rw [hpre, hsuf]
    exact hcut b
  · simp [hlen]
  · exact List.length_take_le _ _

/-- An edit within a separated window changes the hash. -/
theorem Separates.foldl_ne {f : σ → α → σ} {n i : Nat} (hsep : Separates f n)
    (hf : KeepsState f) {a b : List α} (hlen : a.length = b.length) (hne : a ≠ b)
    (hwin : ∀ j, a[j]? ≠ b[j]? → i ≤ j ∧ j < i + n) (s : σ) : a.foldl f s ≠ b.foldl f s := by
  obtain ⟨pre, u, v, suf, rfl, rfl, huv, hn⟩ := exists_window hlen hwin
  intro h
  exact hne (by rw [hsep.append_inj hf huv hn h])

end FoldHash
