import Mathlib.Data.Finset.Erase
import Mathlib.Data.Finset.Insert

/-!
# Names reserved for their owners

A pool hands out names, and keeps the set of those in use. `Exclusive ids names`: the
names that are held (a multiset, one entry for each holder) are held once, and are all
in the set `ids`. A name outside the set may be handed out (`acquire`); a holder may
give its name back (`release`) or disappear with it (`forget`), but giving back a name is safe
for a stranger only if nobody holds it (`releaseUnheld`).
-/

namespace Reservation

universe u

variable {ι : Type u} [DecidableEq ι]

/-- Each held name has one holder, and is reserved. -/
structure Exclusive (ids : Finset ι) (names : Multiset ι) : Prop where
  nodup : names.Nodup
  reserved : ∀ n ∈ names, n ∈ ids

namespace Exclusive

variable {ids : Finset ι} {names : Multiset ι} {n : ι}

omit [DecidableEq ι] in
theorem empty (ids : Finset ι) : Exclusive ids 0 := ⟨Multiset.nodup_zero, by simp⟩

theorem acquire (h : Exclusive ids names) (hn : n ∉ ids) :
    Exclusive (insert n ids) (n ::ₘ names) where
  nodup := Multiset.nodup_cons.2 ⟨fun hmem => hn (h.reserved n hmem), h.nodup⟩
  reserved := by
    intro m hm
    rcases Multiset.mem_cons.1 hm with rfl | hm
    · exact Finset.mem_insert_self _ _
    · exact Finset.mem_insert_of_mem (h.reserved m hm)

omit [DecidableEq ι] in
theorem notMem_of_cons (h : Exclusive ids (n ::ₘ names)) : n ∉ names :=
  (Multiset.nodup_cons.1 h.nodup).1

omit [DecidableEq ι] in
/-- Holders disappear without giving their names back: the names stay reserved. -/
theorem forget {names' : Multiset ι} (h : Exclusive ids names) (hle : names' ≤ names) :
    Exclusive ids names' where
  nodup := Multiset.nodup_of_le hle h.nodup
  reserved := fun m hm => h.reserved m (Multiset.mem_of_le hle hm)

theorem releaseUnheld (h : Exclusive ids names) (hn : n ∉ names) :
    Exclusive (ids.erase n) names where
  nodup := h.nodup
  reserved := by
    intro m hm
    have hne : m ≠ n := fun heq => hn (heq ▸ hm)
    exact Finset.mem_erase.2 ⟨hne, h.reserved m hm⟩

theorem release (h : Exclusive ids (n ::ₘ names)) : Exclusive (ids.erase n) names :=
  (h.forget (Multiset.le_cons_self _ _)).releaseUnheld h.notMem_of_cons

theorem erase (h : Exclusive ids names) : Exclusive (ids.erase n) (names.erase n) := by
  by_cases hn : n ∈ names
  · rw [← Multiset.cons_erase hn] at h
    exact h.release
  · rw [Multiset.erase_of_notMem hn]
    exact h.releaseUnheld hn

end Exclusive

end Reservation
