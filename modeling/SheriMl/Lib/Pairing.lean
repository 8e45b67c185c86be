import Mathlib.Data.List.Perm.Basic

/-!
# Paired items

Items of a list open or close the pairs of a key, or take no part (`role`). A list
is balanced when every key is opened as often as it is closed, in any order. To
remove an item and any one counterpart of it keeps the balance, and a balanced list
has a counterpart for every item.

A list is matched when it is balanced and closes nothing that it has not opened
before; of a list that is being written, `Awaiting` says which keys are still open.
-/

namespace Pairing

universe u v

variable {α : Type u} {κ : Type v} [DecidableEq κ]

/-- The items that open (`true`) or close (`false`) the key. -/
def tally (role : α → Option (κ × Bool)) (items : List α) (key : κ) (opens : Bool) : Nat :=
  items.countP fun a => role a = some (key, opens)

/-- Every key is opened as often as it is closed. -/
def Balanced (role : α → Option (κ × Bool)) (items : List α) : Prop :=
  ∀ key, tally role items key true = tally role items key false

variable {role : α → Option (κ × Bool)} {items items' : List α} {a b : α} {key : κ} {opens : Bool}

theorem tally_cons (key' : κ) (opens' : Bool) : tally role (a :: items) key' opens' =
    tally role items key' opens' + if role a = some (key', opens') then 1 else 0 := by
  unfold tally
  rw [List.countP_cons]
  simp only [decide_eq_true_eq]

theorem Balanced.perm (h : Balanced role items) (hperm : items.Perm items') :
    Balanced role items' := by
  intro key
  unfold tally
  rw [← hperm.countP_eq, ← hperm.countP_eq]
  exact h key

theorem Balanced.tally_eq (h : Balanced role items) (key : κ) (opens : Bool) :
    tally role items key opens = tally role items key (!opens) := by
  cases opens with
  | false => exact (h key).symm
  | true => exact h key

/-- Without an item that takes no part. -/
theorem Balanced.of_unpaired (h : Balanced role (a :: items)) (ha : role a = none) :
    Balanced role items := by
  intro key
  have hkey := h key
  rw [tally_cons, tally_cons, ha] at hkey
  simpa using hkey

theorem Balanced.exists_counterpart (h : Balanced role (a :: items))
    (ha : role a = some (key, opens)) : ∃ b ∈ items, role b = some (key, !opens) := by
  have htally := h.tally_eq key opens
  have hself : ¬ some (key, opens) = some (key, !opens) := by simp
  rw [tally_cons, tally_cons, ha, if_pos rfl, if_neg hself] at htally
  have hpos : 0 < tally role items key (!opens) := by omega
  obtain ⟨b, hb, hrole⟩ := List.countP_pos_iff.1 hpos
  exact ⟨b, hb, of_decide_eq_true hrole⟩

/-- Without an item and a counterpart of it. -/
theorem Balanced.of_pair (h : Balanced role (a :: b :: items)) (ha : role a = some (key, opens))
    (hb : role b = some (key, !opens)) : Balanced role items := by
  intro key'
  have hkey := h key'
  simp only [tally_cons, ha, hb] at hkey
  by_cases hsame : key = key'
  · subst hsame
    cases opens with
    | false =>
      simp only [Bool.not_false, Option.some.injEq, Prod.mk.injEq, true_and, reduceIte,
        Bool.false_eq_true, Bool.true_eq_false, Nat.add_zero] at hkey
      omega
    | true =>
      simp only [Bool.not_true, Option.some.injEq, Prod.mk.injEq, true_and, reduceIte,
        Bool.false_eq_true, Bool.true_eq_false, Nat.add_zero] at hkey
      omega
  · have hne : ∀ opens opens' : Bool, ¬ some (key, opens) = some (key', opens') := by
      intro opens opens' heq
      exact hsame (congrArg Prod.fst (Option.some.inj heq))
    simpa only [if_neg (hne _ _), Nat.add_zero] using hkey

/-! ## Openings before closings -/

/-- No key is closed more often than it has been opened before. -/
def Causal (role : α → Option (κ × Bool)) (items : List α) : Prop :=
  ∀ pre, pre <+: items → ∀ key, tally role pre key false ≤ tally role pre key true

/-- Every opening is followed by a closing of its own. -/
def Matched (role : α → Option (κ × Bool)) (items : List α) : Prop :=
  Balanced role items ∧ Causal role items

/-- The openings without a closing so far. -/
structure Awaiting (role : α → Option (κ × Bool)) (items : List α) (pending : List κ) : Prop where
  causal : Causal role items
  tally_eq : ∀ key, tally role items key true = tally role items key false + pending.count key

theorem tally_append (key : κ) (opens : Bool) : tally role (items ++ items') key opens =
    tally role items key opens + tally role items' key opens :=
  List.countP_append

theorem tally_singleton (key' : κ) (opens' : Bool) :
    tally role [a] key' opens' = if role a = some (key', opens') then 1 else 0 := by
  rw [tally_cons]
  exact Nat.zero_add _

theorem Causal.concat (h : Causal role items)
    (ha : ∀ key, tally role (items ++ [a]) key false ≤ tally role (items ++ [a]) key true) :
    Causal role (items ++ [a]) := by
  intro pre hpre
  obtain rfl | hpre := List.prefix_concat_iff.1 hpre
  · exact ha
  · exact h pre hpre

namespace Awaiting

variable {pending pending' : List κ}

theorem nil : Awaiting role [] [] := by
  refine ⟨fun pre hpre key => ?_, fun key => rfl⟩
  rw [List.prefix_nil.1 hpre]
  exact Nat.le_refl _

theorem perm (h : Awaiting role items pending) (hperm : pending.Perm pending') :
    Awaiting role items pending' :=
  ⟨h.causal, fun key => by rw [h.tally_eq, hperm.count_eq]⟩

/-- An item that keeps the account keeps the order. -/
theorem concat (h : Awaiting role items pending)
    (ha : ∀ key, tally role (items ++ [a]) key true =
      tally role (items ++ [a]) key false + pending'.count key) :
    Awaiting role (items ++ [a]) pending' :=
  ⟨h.causal.concat fun key => by
    rw [ha]
    exact Nat.le_add_right _ _, ha⟩

theorem unpaired (h : Awaiting role items pending) (ha : role a = none) :
    Awaiting role (items ++ [a]) pending := by
  refine h.concat fun key => ?_
  simp [tally_append, tally_singleton, ha, h.tally_eq key]

theorem opened (h : Awaiting role items pending) (ha : role a = some (key, true)) :
    Awaiting role (items ++ [a]) (pending ++ [key]) := by
  refine h.concat fun key' => ?_
  have hcount : [key].count key' = if key = key' then 1 else 0 := by
    simp [List.count_singleton]
  rw [List.count_append, hcount]
  simp [tally_append, tally_singleton, ha, h.tally_eq key', Nat.add_assoc]

theorem closed (h : Awaiting role items (key :: pending)) (ha : role a = some (key, false)) :
    Awaiting role (items ++ [a]) pending := by
  refine h.concat fun key' => ?_
  have hkey := h.tally_eq key'
  rw [List.count_cons] at hkey
  simp only [beq_iff_eq] at hkey
  simp only [tally_append, tally_singleton, ha, Option.some.injEq, Prod.mk.injEq,
    Bool.false_eq_true, and_true, and_false, reduceIte, Nat.add_zero]
  omega

/-- A list is matched when nothing is open. -/
theorem matched_iff (h : Awaiting role items pending) : Matched role items ↔ pending = [] := by
  constructor
  · rintro ⟨hbalanced, -⟩
    refine List.eq_nil_iff_forall_not_mem.2 fun key hkey => ?_
    have hcount := List.count_pos_iff.2 hkey
    have htally := h.tally_eq key
    have hkey := hbalanced key
    omega
  · rintro rfl
    exact ⟨fun key => h.tally_eq key, h.causal⟩

end Awaiting

end Pairing
