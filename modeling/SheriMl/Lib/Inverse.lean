import Mathlib.Data.Finmap

/-!
# Finite maps that are inverse to each other

Names given to keys, and keys given back by names: what keeps the two maps inverse when a key
gets a new name (`Inverse.insert`) or a name a new key (`Inverse.move`). And a fold over entries
in any order, whose steps commute as long as the entries that are left are ready for them
(`List.Perm.foldl_eq_of_ready`).
-/

universe u v

namespace Finmap

variable {α : Type u} {β : Type v} [DecidableEq α] {a a' : α} {b : β}
  {s : Finmap fun _ : α => β}

theorem insert_erase_self : (s.erase a).insert a b = s.insert a b := by
  apply ext_lookup
  intro x
  by_cases hx : x = a
  · subst hx
    rw [lookup_insert, lookup_insert]
  · rw [lookup_insert_of_ne _ hx, lookup_insert_of_ne _ hx, lookup_erase_ne hx]

theorem erase_insert_self : (s.insert a b).erase a = s.erase a := by
  apply ext_lookup
  intro x
  by_cases hx : x = a
  · subst hx
    rw [lookup_erase, lookup_erase]
  · rw [lookup_erase_ne hx, lookup_erase_ne hx, lookup_insert_of_ne _ hx]

theorem erase_insert_of_ne (h : a ≠ a') : (s.insert a b).erase a' = (s.erase a').insert a b := by
  apply ext_lookup
  intro x
  by_cases hx : x = a'
  · subst hx
    rw [lookup_erase, lookup_insert_of_ne _ h.symm, lookup_erase]
  · rw [lookup_erase_ne hx]
    by_cases hxa : x = a
    · subst hxa
      rw [lookup_insert, lookup_insert]
    · rw [lookup_insert_of_ne _ hxa, lookup_insert_of_ne _ hxa, lookup_erase_ne hx]

theorem insert_of_lookup (h : s.lookup a = some b) : s.insert a b = s := by
  apply ext_lookup
  intro x
  by_cases hx : x = a
  · subst hx
    rw [lookup_insert, h]
  · rw [lookup_insert_of_ne _ hx]

end Finmap

/-- Each map gives back what the other has. -/
def Inverse {α : Type u} {β : Type v} [DecidableEq α] [DecidableEq β]
    (names : Finmap fun _ : α => β) (keys : Finmap fun _ : β => α) : Prop :=
  ∀ a b, names.lookup a = some b ↔ keys.lookup b = some a

namespace Inverse

variable {α : Type u} {β : Type v} [DecidableEq α] [DecidableEq β] {a c : α} {b b' : β}
  {names : Finmap fun _ : α => β} {keys : Finmap fun _ : β => α}

theorem empty : Inverse (∅ : Finmap fun _ : α => β) ∅ := by
  intro a b
  rw [Finmap.lookup_empty, Finmap.lookup_empty]
  constructor
  · intro h
    cases h
  · intro h
    cases h

theorem name_unique (h : Inverse names keys) (hb : keys.lookup b = some a)
    (hb' : keys.lookup b' = some a) : b = b' :=
  Option.some.inj (((h a b).2 hb).symm.trans ((h a b').2 hb'))

/-- A key gets a new name. -/
theorem insert (h : Inverse names keys) (ha : a ∉ names) (hb : b ∉ keys) :
    Inverse (names.insert a b) (keys.insert b a) := by
  rw [← Finmap.lookup_eq_none] at ha hb
  intro x y
  by_cases hx : x = a
  · subst hx
    by_cases hy : y = b
    · subst hy
      rw [Finmap.lookup_insert, Finmap.lookup_insert]
      exact iff_of_true rfl rfl
    · rw [Finmap.lookup_insert, Finmap.lookup_insert_of_ne _ hy, ← h, ha]
      constructor
      · intro heq
        exact absurd (Option.some.inj heq).symm hy
      · intro heq
        cases heq
  · rw [Finmap.lookup_insert_of_ne _ hx]
    by_cases hy : y = b
    · subst hy
      rw [Finmap.lookup_insert, h, hb]
      constructor
      · intro heq
        cases heq
      · intro heq
        exact absurd (Option.some.inj heq).symm hx
    · rw [Finmap.lookup_insert_of_ne _ hy]
      exact h x y

/-- A name gets a key that has no name, or the one it had. -/
theorem move (h : Inverse names keys) (ha : names.lookup a = some b) (hc : c = a ∨ c ∉ names) :
    Inverse ((names.erase a).insert c b) (keys.insert b c) := by
  intro x y
  by_cases hx : x = c
  · subst hx
    by_cases hy : y = b
    · subst hy
      rw [Finmap.lookup_insert, Finmap.lookup_insert]
      exact iff_of_true rfl rfl
    · rw [Finmap.lookup_insert, Finmap.lookup_insert_of_ne _ hy]
      constructor
      · intro heq
        exact absurd (Option.some.inj heq).symm hy
      · intro hkey
        -- the key would have had the name already
        have hname := (h x y).2 hkey
        rcases hc with rfl | hc
        · exact ha.symm.trans hname
        · exact absurd (Finmap.mem_of_lookup_eq_some hname) hc
  · rw [Finmap.lookup_insert_of_ne _ hx]
    by_cases hy : y = b
    · subst hy
      rw [Finmap.lookup_insert]
      constructor
      · intro hname
        by_cases hxa : x = a
        · rw [hxa, Finmap.lookup_erase] at hname
          cases hname
        · rw [Finmap.lookup_erase_ne hxa] at hname
          have hkey := (h x y).1 hname
          rw [(h a y).1 ha] at hkey
          exact absurd (Option.some.inj hkey).symm hxa
      · intro heq
        exact absurd (Option.some.inj heq).symm hx
    · rw [Finmap.lookup_insert_of_ne _ hy]
      by_cases hxa : x = a
      · subst hxa
        rw [Finmap.lookup_erase, ← h, ha]
        constructor
        · intro heq
          cases heq
        · intro heq
          exact absurd (Option.some.inj heq).symm hy
      · rw [Finmap.lookup_erase_ne hxa]
        exact h x y

end Inverse

/-- Steps that commute as long as the entries left are ready for them may be taken in any
order. -/
theorem List.Perm.foldl_eq_of_ready {σ : Type u} {α : Type v} {step : σ → α → σ} {Ready : σ → List α → Prop}
    (hperm : ∀ {s l l'}, l.Perm l' → Ready s l → Ready s l')
    (hstep : ∀ {s x l}, Ready s (x :: l) → Ready (step s x) l)
    (hswap : ∀ {s x y l}, Ready s (x :: y :: l) → step (step s x) y = step (step s y) x)
    {s : σ} {l l' : List α} (h : l.Perm l') (hready : Ready s l) :
    l.foldl step s = l'.foldl step s := by
  induction h generalizing s with
  | nil => rfl
  | cons x h ih => exact ih (hstep hready)
  | swap x y l =>
    rw [List.foldl_cons, List.foldl_cons, List.foldl_cons, List.foldl_cons, hswap hready]
  | trans h _ ih ih' => exact (ih hready).trans (ih' (hperm h hready))
