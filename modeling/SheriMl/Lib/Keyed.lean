import Mathlib.Data.List.AList

/-!
# The first value of each key

Values filed under keys computed from them, a value whose key is taken being left
out. Nothing is left out just where no two values have one key (`perm_collect_iff`).
-/

namespace SheriMl.Keyed

open List

variable {α β : Type*} [DecidableEq α] {key : β → α} {m : AList fun _ : α => β} {l : List β} {b : β}

/-- A value is filed unless its key is taken. -/
def file (key : β → α) (m : AList fun _ : α => β) (b : β) : AList fun _ : α => β :=
  if key b ∈ m then m else m.insert (key b) b

/-- The values filed one after the other. -/
def collect (key : β → α) (l : List β) : AList fun _ : α => β := l.foldl (file key) ∅

def values (m : AList fun _ : α => β) : List β := m.entries.map (·.2)

theorem file_of_mem (h : key b ∈ m) : file key m b = m := if_pos h

theorem values_file (h : key b ∉ m) : values (file key m b) = b :: values m := by
  rw [file, if_neg h, values, AList.entries_insert_of_notMem h, map_cons]
  rfl

theorem mem_file {a : α} : a ∈ file key m b ↔ a = key b ∨ a ∈ m := by
  unfold file
  split
  next h =>
    constructor
    · exact .inr
    · rintro (rfl | ha)
      · exact h
      · exact ha
  next => exact AList.mem_insert m

/-- Each value is under its own key. -/
theorem key_eq_of_mem_foldl (hm : ∀ e ∈ m.entries, key e.2 = e.1) :
    ∀ e ∈ (l.foldl (file key) m).entries, key e.2 = e.1 := by
  induction l generalizing m with
  | nil => exact hm
  | cons b l ih =>
    refine ih fun e he => ?_
    by_cases h : key b ∈ m
    · rw [file_of_mem h] at he
      exact hm e he
    · rw [file, if_neg h, AList.entries_insert_of_notMem h] at he
      rcases mem_cons.1 he with rfl | he
      · rfl
      · exact hm e he

theorem length_foldl_le :
    (values (l.foldl (file key) m)).length ≤ l.length + (values m).length := by
  induction l generalizing m with
  | nil => rw [foldl_nil, length_nil, Nat.zero_add]
  | cons b l ih =>
    rw [foldl_cons, length_cons]
    have hrest := ih (m := file key m b)
    by_cases h : key b ∈ m
    · rw [file_of_mem h] at hrest ⊢
      omega
    · rw [values_file h, length_cons] at hrest
      omega

/-- New keys, no two the same: every value is filed. -/
theorem perm_foldl (hnew : ∀ b ∈ l, key b ∉ m) (hne : l.Pairwise fun b b' => key b ≠ key b') :
    (values (l.foldl (file key) m)).Perm (l ++ values m) := by
  induction l generalizing m with
  | nil => exact List.Perm.refl _
  | cons b l ih =>
    obtain ⟨hb, hl⟩ := pairwise_cons.1 hne
    have hbnew := hnew b mem_cons_self
    have hrest : ∀ b' ∈ l, key b' ∉ file key m b := by
      intro b' hb' hmem
      rcases mem_file.1 hmem with heq | hmem
      · exact hb b' hb' heq.symm
      · exact hnew b' (mem_cons_of_mem b hb') hmem
    have hperm := ih hrest hl
    rw [values_file hbnew] at hperm
    exact hperm.trans perm_middle

/-- Otherwise a value is left out. -/
theorem pairwise_of_length_le
    (h : l.length + (values m).length ≤ (values (l.foldl (file key) m)).length) :
    (∀ b ∈ l, key b ∉ m) ∧ l.Pairwise fun b b' => key b ≠ key b' := by
  induction l generalizing m with
  | nil => exact ⟨fun b hb => absurd hb not_mem_nil, .nil⟩
  | cons b l ih =>
    rw [foldl_cons, length_cons] at h
    have hle : (values (l.foldl (file key) (file key m b))).length ≤
        l.length + (values (file key m b)).length := length_foldl_le
    have hb : key b ∉ m := by
      intro hmem
      rw [file_of_mem hmem] at h hle
      omega
    obtain ⟨hnew, hne⟩ := ih (m := file key m b) (by rw [values_file hb, length_cons]; omega)
    refine ⟨fun b' hb' => ?_, pairwise_cons.2 ⟨fun b' hb' heq => ?_, hne⟩⟩
    · rcases mem_cons.1 hb' with rfl | hb'
      · exact hb
      · exact fun hmem => hnew b' hb' (mem_file.2 (.inr hmem))
    · exact hnew b' hb' (mem_file.2 (.inl heq.symm))

/-- Every value is filed, each once, just where the keys are all different. -/
theorem perm_collect_iff :
    (values (collect key l)).Perm l ↔ l.Pairwise fun b b' => key b ≠ key b' := by
  constructor
  · intro h
    refine (pairwise_of_length_le (m := ∅) ?_).2
    rw [show values (∅ : AList fun _ : α => β) = [] from rfl, length_nil, Nat.add_zero]
    exact Nat.le_of_eq h.length_eq.symm
  · intro h
    have hperm := perm_foldl (m := ∅) (fun b _ => AList.notMem_empty (key b)) h
    rwa [show values (∅ : AList fun _ : α => β) = [] from rfl, append_nil] at hperm

/-- The keys of the table are keys of values. -/
theorem exists_of_mem_collect {a : α} (h : a ∈ collect key l) :
    ∃ b ∈ values (collect key l), key b = a := by
  obtain ⟨e, he, rfl⟩ := mem_map.1 (show a ∈ (collect key l).entries.map Sigma.fst from h)
  exact ⟨e.2, mem_map_of_mem he,
    key_eq_of_mem_foldl (m := ∅) (fun e he => absurd he not_mem_nil) e he⟩

end SheriMl.Keyed
