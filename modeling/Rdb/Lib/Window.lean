-- SUMMARY: Sliding windows whose size is set anew by every push, and which elements they keep.
import Mathlib.Data.List.DropRight
import Mathlib.Data.List.Induction
import Mathlib.Data.List.Nodup

/-!
# Sliding windows

A window is a list that every push extends at its end and cuts at its front, down to
a depth that comes with the push. An element is in the window as long as every push
since its own had a depth that reaches back to it.
-/

namespace Window

variable {α : Type*}

theorem suffix_rtake_iff {l w : List α} {n : Nat} :
    l <:+ w.rtake n ↔ l <:+ w ∧ l.length ≤ n := by
  have hlen : (w.rtake n).length = min n w.length := by simp [List.rtake]; omega
  have hsuf : w.rtake n <:+ w := List.drop_suffix _ _
  constructor
  · intro h
    have hle := h.length_le
    exact ⟨h.trans hsuf, by omega⟩
  · rintro ⟨h, hn⟩
    have hle := h.length_le
    exact List.suffix_of_suffix_length_le h hsuf (by omega)

theorem suffix_concat_iff {l w : List α} {a : α} : l ++ [a] <:+ w ++ [a] ↔ l <:+ w := by
  constructor
  · rintro ⟨front, h⟩
    rw [← List.append_assoc] at h
    exact ⟨front, List.append_cancel_right h⟩
  · rintro ⟨front, rfl⟩
    exact ⟨front, by simp⟩

/-- A suffix of a list without repetitions has everything from its members on. -/
theorem drop_suffix_of_mem {l w : List α} (hnodup : l.Nodup) (hsuf : w <:+ l) {i : Nat} {a : α}
    (ha : a ∈ w) (hi : l[i]? = some a) : l.drop i <:+ w := by
  obtain ⟨front, rfl⟩ := hsuf
  rcases Nat.lt_or_ge i front.length with hlt | hge
  · rw [List.getElem?_append_left hlt] at hi
    exact absurd rfl ((List.nodup_append.mp hnodup).2.2 a (List.mem_of_getElem? hi) a ha)
  · rw [List.drop_append, List.drop_eq_nil_of_le hge, List.nil_append]
    exact List.drop_suffix _ _

/-- The window after pushes of values, each with the depth it cuts down to. -/
def window (ds : List (Nat × α)) : List α := ds.foldl (fun w d => (w ++ [d.2]).rtake d.1) []

theorem window_snoc (ds : List (Nat × α)) (d : Nat × α) :
    window (ds ++ [d]) = (window ds ++ [d.2]).rtake d.1 := by
  simp [window, List.foldl_append]

/-- The window is the end of what was pushed. -/
theorem window_suffix (ds : List (Nat × α)) : window ds <:+ ds.map Prod.snd := by
  induction ds using List.reverseRecOn with
  | nil => exact List.suffix_rfl
  | append_singleton ds d ih =>
      rw [window_snoc, List.map_append, List.map_singleton]
      exact (suffix_rtake_iff.mp List.suffix_rfl).1.trans (suffix_concat_iff.mpr ih)

/-- What was pushed from position `i` on is all in the window exactly when no depth
    since then was too small. -/
theorem drop_suffix_window_iff {ds : List (Nat × α)} {i : Nat} (hi : i ≤ ds.length) :
    (ds.drop i).map Prod.snd <:+ window ds ↔
      ∀ j d, ds[j]? = some d → i ≤ j → j - i < d.1 := by
  induction ds using List.reverseRecOn with
  | nil => simp
  | append_singleton ds d ih =>
      rw [List.length_append, List.length_singleton] at hi
      rcases Nat.lt_or_eq_of_le hi with hlt | rfl
      · have hi' : i ≤ ds.length := Nat.le_of_lt_succ hlt
        have hstep : ((ds ++ [d]).drop i).map Prod.snd <:+ window (ds ++ [d]) ↔
            (ds.drop i).map Prod.snd <:+ window ds ∧ ds.length - i < d.1 := by
          rw [window_snoc, List.drop_append_of_le_length hi', List.map_append, List.map_singleton,
            suffix_rtake_iff, suffix_concat_iff]
          simp only [List.length_append, List.length_map, List.length_drop, List.length_singleton,
            Nat.lt_iff_add_one_le]
        rw [hstep, ih hi']
        constructor
        · rintro ⟨hold, hnew⟩ j e hj hij
          rcases Nat.lt_or_ge j ds.length with hjlt | hjge
          · rw [List.getElem?_append_left hjlt] at hj
            exact hold j e hj hij
          · obtain ⟨hlast, rfl⟩ : j = ds.length ∧ d = e := by
              rw [List.getElem?_append_right hjge, List.getElem?_singleton] at hj
              split at hj
              · exact ⟨by omega, Option.some.inj hj⟩
              · cases hj
            exact hlast ▸ hnew
        · intro h
          refine ⟨fun j e hj hij => h j e ?_ hij, h _ d (by simp) hi'⟩
          obtain ⟨hjlt, -⟩ := List.getElem?_eq_some_iff.mp hj
          rw [List.getElem?_append_left hjlt, hj]
      -- nothing was pushed since then
      · have hnil : (ds ++ [d]).drop (ds.length + 1) = [] := by simp
        simp only [hnil, List.map_nil, List.nil_suffix, true_iff]
        intro j e hj hij
        obtain ⟨hjlt, -⟩ := List.getElem?_eq_some_iff.mp hj
        simp at hjlt
        omega

/-- When no value is pushed twice, a value is in the window exactly when no depth since
    its own push was too small. -/
theorem mem_window_iff {ds : List (Nat × α)} (hnodup : (ds.map Prod.snd).Nodup) {i : Nat}
    {d : Nat × α} (hi : ds[i]? = some d) :
    d.2 ∈ window ds ↔ ∀ j e, ds[j]? = some e → i ≤ j → j - i < e.1 := by
  obtain ⟨hlt, hget⟩ := List.getElem?_eq_some_iff.mp hi
  rw [← drop_suffix_window_iff (Nat.le_of_lt hlt)]
  constructor
  · intro hmem
    rw [List.map_drop]
    refine drop_suffix_of_mem hnodup (window_suffix ds) hmem ?_
    rw [List.getElem?_map, hi]
    rfl
  · intro h
    apply h.subset
    rw [List.drop_eq_getElem_cons hlt, hget]
    exact List.mem_cons_self

end Window
