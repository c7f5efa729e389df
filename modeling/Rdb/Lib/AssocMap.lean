-- SUMMARY: Association lists whose values are mapped all at once.
import Mathlib.Data.List.AList

/-!
# Mapping the values of an association list

`AList.mapVals f` applies `f` to every value and keeps the keys and their order.
It commutes with lookup.
-/

namespace AList

variable {α β γ : Type*}

theorem nodupKeys_map_snd {l : List (Sigma fun _ : α => β)} (f : β → γ) (h : l.NodupKeys) :
    (l.map fun e => (⟨e.1, f e.2⟩ : Sigma fun _ : α => γ)).NodupKeys := by
  unfold List.NodupKeys List.keys at h ⊢
  simpa [Function.comp_def] using h

/-- Apply `f` to every value. -/
def mapVals (f : β → γ) (s : AList fun _ : α => β) : AList fun _ : α => γ where
  entries := s.entries.map fun e => ⟨e.1, f e.2⟩
  nodupKeys := nodupKeys_map_snd f s.nodupKeys

variable [DecidableEq α]

@[simp] theorem lookup_mapVals (f : β → γ) (s : AList fun _ : α => β) (a : α) :
    (s.mapVals f).lookup a = (s.lookup a).map f :=
  List.dlookup_map₂ (l := s.entries) (f := fun _ => f) a

/-- Reading one entry, with a default, after another one was written. -/
theorem elim_lookup_insert (d : γ) (f : β → γ) (s : AList fun _ : α => β) (a a' : α) (b : β) :
    ((s.insert a' b).lookup a).elim d f = if a = a' then f b else (s.lookup a).elim d f := by
  by_cases h : a = a'
  · subst h; simp
  · simp [h]

/-- Writing an entry that reads the same changes nothing. -/
theorem elim_lookup_insert_of_eq {d : γ} {f : β → γ} {s : AList fun _ : α => β} {a' : α} {b b' : β}
    (hlook : s.lookup a' = some b) (heq : f b' = f b) (a : α) :
    ((s.insert a' b').lookup a).elim d f = (s.lookup a).elim d f := by
  rw [elim_lookup_insert]
  split
  · rename_i h
    rw [h, hlook, heq]
    rfl
  · rfl

end AList
