import Mathlib.Order.Lattice
import Mathlib.Data.List.Basic

/-!
# Paging through a descending list

A listing whose entries have keys is served in pages: a page has the first entries below a
cursor, and the next cursor is the key of its last entry. Each request may find another
listing. `follow_exact`: where a new listing has the same entries below the cursor as the
one that gave it, the pages are the first listing, cut up.
-/

namespace Paging

open List

universe u v

/-- The items of a page, and where the next page starts. -/
structure Page (κ : Type u) (ι : Type v) where
  items : List ι
  next : Option κ

variable {κ : Type u} {ι : Type v} [LinearOrder κ] {size n : Nat} {cursor : Option κ} {c : κ}
  {entries entries' : List (κ × ι)} {e : κ × ι} {page : Page κ ι}

def after (cursor : Option κ) (entries : List (κ × ι)) : List (κ × ι) :=
  entries.filter fun e => cursor.all fun c => e.1 < c

/-- Each key is above the keys that follow. -/
def Descending (entries : List (κ × ι)) : Prop := entries.Pairwise fun e e' => e'.1 < e.1

/-- A page of up to `size` of the entries below a cursor. There may be a next page, at the last
of them, though no entry is left; there must be one if an entry is. -/
structure Serves (size : Nat) (cursor : Option κ) (entries : List (κ × ι)) (page : Page κ ι) :
    Prop where
  items_eq : page.items = ((after cursor entries).take size).map Prod.snd
  of_next_none : page.next = none → (after cursor entries).length ≤ size
  of_next_some : ∀ c, page.next = some c →
    ∃ e, ((after cursor entries).take size).getLast? = some e ∧ e.1 = c

theorem after_none (entries : List (κ × ι)) : after none entries = entries :=
  filter_eq_self.2 fun _ _ => rfl

theorem Descending.after (h : Descending entries) (cursor : Option κ) :
    Descending (after cursor entries) := List.Pairwise.filter _ h

/-- The first entry has the largest key. -/
theorem Descending.le_of_mem_take_one (h : Descending entries) (he : e ∈ entries.take 1)
    {e' : κ × ι} (he' : e' ∈ entries) : e'.1 ≤ e.1 := by
  cases entries with
  | nil => cases he'
  | cons first rest =>
    rw [take_succ_cons, take_zero, mem_singleton] at he
    subst he
    rcases mem_cons.1 he' with rfl | hrest
    · exact le_refl _
    · exact le_of_lt ((pairwise_cons.1 h).1 e' hrest)

/-- A cursor below another one leaves the same of what the other one left. -/
theorem after_after (hc : cursor.all fun c' => c < c') :
    after (some c) (after cursor entries) = after (some c) entries := by
  unfold after
  rw [filter_filter]
  apply filter_congr
  intro e _
  cases cursor with
  | none => simp
  | some c' =>
    have hlt : c < c' := of_decide_eq_true hc
    have htrans : e.1 < c → e.1 < c' := fun h => lt_trans h hlt
    simpa using htrans

/-- The key of the last of some first entries leaves just the others. -/
theorem after_getLast (h : Descending (entries ++ entries'))
    (hlast : entries.getLast? = some e) : after (some e.1) (entries ++ entries') = entries' := by
  obtain ⟨hentries, _, habove⟩ := pairwise_append.1 h
  obtain ⟨init, rfl⟩ := List.getLast?_eq_some_iff.1 hlast
  unfold after
  rw [filter_append, filter_eq_nil_iff.2, filter_eq_self.2, nil_append]
  · intro e' he'
    exact decide_eq_true (habove e (mem_append_right _ (mem_singleton_self e)) e' he')
  · intro e' he'
    have hle : e.1 ≤ e'.1 := by
      rcases mem_append.1 he' with hinit | hmem
      · exact le_of_lt ((pairwise_append.1 hentries).2.2 e' hinit e (mem_singleton_self e))
      · rw [mem_singleton.1 hmem]
    simpa using hle

/-- What the cursor of a page leaves is what the page itself has left. -/
theorem Serves.after_next (h : Serves size cursor entries page) (hdesc : Descending entries)
    (hnext : page.next = some c) :
    after cursor entries = (after cursor entries).take size ++ after (some c) entries := by
  obtain ⟨e, hlast, rfl⟩ := h.of_next_some c hnext
  have hmem : e ∈ after cursor entries := mem_of_mem_take (mem_of_getLast? hlast)
  have hbelow : cursor.all fun c' => e.1 < c' := (mem_filter.1 hmem).2
  have hafter := hdesc.after cursor
  rw [← take_append_drop size (after cursor entries)] at hafter
  have hrest := after_getLast hafter hlast
  rw [take_append_drop, after_after hbelow] at hrest
  rw [hrest, take_append_drop]

theorem Serves.items_of_next_none (h : Serves size cursor entries page) (hnext : page.next = none) :
    page.items = (after cursor entries).map Prod.snd := by
  rw [h.items_eq, take_of_length_le (h.of_next_none hnext)]

/-! ## Sorting by a key -/

section Sorting

variable {α : Type v} {key : α → κ} {l l' : List α}

/-- Largest keys first. -/
def sortDesc (key : α → κ) (l : List α) : List α := l.mergeSort fun a b => key b ≤ key a

theorem sortDesc_perm (key : α → κ) (l : List α) : (sortDesc key l).Perm l := mergeSort_perm ..

/-- With distinct keys the order is strict. -/
theorem pairwise_sortDesc (h : (l.map key).Nodup) :
    (sortDesc key l).Pairwise fun a b => key b < key a := by
  have hsorted : (sortDesc key l).Pairwise fun a b => decide (key b ≤ key a) = true :=
    pairwise_mergeSort
      (fun a b c hab hbc => by
        have hab := of_decide_eq_true hab
        have hbc := of_decide_eq_true hbc
        exact decide_eq_true (le_trans hbc hab))
      (fun a b => by simpa using le_total (key b) (key a)) l
  have hdistinct : (sortDesc key l).Pairwise fun a b => key a ≠ key b :=
    pairwise_map.1 (((sortDesc_perm key l).map key).nodup_iff.2 h)
  refine (hsorted.and hdistinct).imp ?_
  rintro a b ⟨hle, hne⟩
  exact lt_of_le_of_ne (of_decide_eq_true hle) (Ne.symm hne)

theorem nodup_map_of_pairwise (h : l.Pairwise fun a b => key b < key a) : (l.map key).Nodup :=
  pairwise_map.2 (h.imp fun hlt => (ne_of_lt hlt).symm)

/-- A list in order is its own sorting, and that of each list with the same elements. -/
theorem eq_sortDesc (h : l.Pairwise fun a b => key b < key a) (hperm : l.Perm l') :
    l = sortDesc key l' := by
  have hnodup : (l'.map key).Nodup := (hperm.map key).nodup_iff.1 (nodup_map_of_pairwise h)
  refine List.Perm.eq_of_pairwise ?_ h (pairwise_sortDesc hnodup)
    (hperm.trans (sortDesc_perm key l').symm)
  intro a b _ _ hab hba
  exact absurd (lt_trans hab hba) (lt_irrefl _)

theorem sortDesc_congr (h : (l.map key).Nodup) (hperm : l.Perm l') :
    sortDesc key l = sortDesc key l' :=
  eq_sortDesc (pairwise_sortDesc h) ((sortDesc_perm key l).trans hperm)

theorem map_sortDesc {β : Type v} {key' : β → κ} (f : α → β) (h : ∀ a, key' (f a) = key a) :
    (sortDesc key l).map f = sortDesc key' (l.map f) :=
  map_mergeSort fun a _ b _ => by rw [h, h]

end Sorting

/-! ## Following the cursors -/

section Follow

variable {request : Nat → Option κ → Page κ ι} {listing : Nat → List (κ × ι)}

/-- The page of the `n`-th request, if there is one: the next cursor of the one before. -/
def follow (request : Nat → Option κ → Page κ ι) : Nat → Option (Page κ ι)
  | 0 => some (request 0 none)
  | n + 1 => (follow request n).bind fun page => page.next.map fun c => request (n + 1) (some c)

/-- The items of the pages up to the `n`-th. -/
def collected (request : Nat → Option κ → Page κ ι) : Nat → List ι
  | 0 => (request 0 none).items
  | n + 1 => collected request n ++ ((follow request (n + 1)).map Page.items).getD []

/-- Each listing has the entries of the one before that the cursor left, and no others below it. -/
def Grows (request : Nat → Option κ → Page κ ι) (listing : Nat → List (κ × ι)) : Prop :=
  ∀ n page c, follow request n = some page → page.next = some c →
    after (some c) (listing (n + 1)) = after (some c) (listing n)

omit [LinearOrder κ] in
theorem follow_succ (hpage : follow request n = some page) (hnext : page.next = some c) :
    follow request (n + 1) = some (request (n + 1) (some c)) := by
  rw [follow, hpage, Option.bind_some, hnext, Option.map_some]

omit [LinearOrder κ] in
theorem exists_of_follow_succ (h : follow request (n + 1) = some page) :
    ∃ c, page = request (n + 1) (some c) := by
  obtain ⟨_, _, hmap⟩ := Option.bind_eq_some_iff.1 h
  obtain ⟨c, _, rfl⟩ := Option.map_eq_some_iff.1 hmap
  exact ⟨c, rfl⟩

theorem follow_exact_from (hserves : ∀ n cursor, Serves size cursor (listing n) (request n cursor))
    (hdesc : ∀ n, Descending (listing n)) (hgrows : Grows request listing) (left : Nat) :
    ∀ n cursor done, (after cursor (listing n)).length ≤ left →
      follow request n = some (request n cursor) →
      collected request n = done ++ (request n cursor).items →
      ∃ m page, follow request m = some page ∧ page.next = none ∧
        collected request m = done ++ (after cursor (listing n)).map Prod.snd := by
  induction left with
  | zero =>
    intro n cursor done hleft hfollow hcollected
    have hserved := hserves n cursor
    have hnil : after cursor (listing n) = [] := length_eq_zero_iff.1 (Nat.le_zero.1 hleft)
    refine ⟨n, request n cursor, hfollow, ?_, ?_⟩
    · by_contra hne
      obtain ⟨c, hc⟩ := Option.ne_none_iff_exists'.1 hne
      obtain ⟨e, hlast, _⟩ := hserved.of_next_some c hc
      rw [hnil, take_nil] at hlast
      cases hlast
    · rw [hcollected, hserved.items_eq, hnil, take_nil]
  | succ left ih =>
    intro n cursor done hleft hfollow hcollected
    have hserved := hserves n cursor
    cases hnext : (request n cursor).next with
    | none => exact ⟨n, _, hfollow, hnext, by rw [hcollected, hserved.items_of_next_none hnext]⟩
    | some c =>
      have hsplit := hserved.after_next (hdesc n) hnext
      have hgrown := hgrows n _ c hfollow hnext
      have hfollow' := follow_succ hfollow hnext
      obtain ⟨e, hlast, _⟩ := hserved.of_next_some c hnext
      have htaken : 0 < ((after cursor (listing n)).take size).length :=
        length_pos_of_mem (mem_of_getLast? hlast)
      have hlength := congrArg List.length hsplit
      rw [length_append] at hlength
      obtain ⟨m, page, hm, hpage, hall⟩ := ih (n + 1) (some c) (done ++ (request n cursor).items)
        (by rw [hgrown]; omega) hfollow'
        (by rw [collected, hcollected, hfollow', Option.map_some, Option.getD_some])
      refine ⟨m, page, hm, hpage, ?_⟩
      rw [hall, hgrown, hserved.items_eq, append_assoc, ← map_append, ← hsplit]

/-- The cursors end, and what the pages have in all is the first listing. -/
theorem follow_exact (hserves : ∀ n cursor, Serves size cursor (listing n) (request n cursor))
    (hdesc : ∀ n, Descending (listing n)) (hgrows : Grows request listing) :
    ∃ n page, follow request n = some page ∧ page.next = none ∧
      collected request n = (listing 0).map Prod.snd := by
  have hfrom := follow_exact_from hserves hdesc hgrows _ 0 none [] (Nat.le_refl _) rfl rfl
  rwa [after_none, nil_append] at hfrom

end Follow

end Paging
