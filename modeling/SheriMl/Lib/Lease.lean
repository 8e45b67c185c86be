import Mathlib.Data.List.Nodup
import Mathlib.Order.Lattice

/-!
# Leases with ownership tokens

One resource, held under a lease by the token that claimed it last. The log
keeps, newest first, what the holders were told: a claim or an extension with
its end, or that the token finished. A holder goes by what it was told; the
resource only knows the last token and its lease (`Holder`).

`Tracks log now h` ties the two together. The rules `claim`, `extend`, `finish`
and `tick` preserve it, where a claim needs a fresh token and a lease that is
gone or over. From it: leases that are not over are one token's (`holder_of_live`),
a token finishes at most once (`Tracks.once`), and a superseded token no longer
holds the resource (`token_ne_of_superseded`).
-/

namespace Lease

universe u v

variable {τ : Type u} {T : Type v}

/-- What a holder was told. -/
inductive Event (τ : Type u) (T : Type v) where
  | claimed (token : τ) (lease : T)
  | extended (token : τ) (lease : T)
  | finished (token : τ)
  deriving DecidableEq

namespace Event

def token : Event τ T → τ
  | claimed t _ => t
  | extended t _ => t
  | finished t => t

/-- The end of the lease it tells of. -/
def lease : Event τ T → Option T
  | claimed _ u => some u
  | extended _ u => some u
  | finished _ => none

def claim : Event τ T → Option τ
  | claimed t _ => some t
  | _ => none

end Event

/-- The tokens of the claims, newest first. -/
def claims (log : List (Event τ T)) : List τ := log.filterMap Event.claim

/-- A later claim followed the claim of this token. -/
def Superseded (log : List (Event τ T)) (t : τ) : Prop := ∃ t', [t', t].Sublist (claims log)

/-- What the resource knows: the last token, and its lease until it finishes. -/
structure Holder (τ : Type u) (T : Type v) where
  token : Option τ
  lease : Option T

/-- A change of the resource at time `now`, and what its holder is told. -/
inductive Holder.Step [LE T] (now : T) (h : Holder τ T) : Event τ T → Holder τ T → Prop
  | claimed {t : τ} {u : T} (free : ∀ u', h.lease = some u' → u' ≤ now) :
      Step now h (.claimed t u) ⟨some t, some u⟩
  | extended {t : τ} {u : T} (token : h.token = some t) (lease : h.lease.isSome) :
      Step now h (.extended t u) ⟨some t, some u⟩
  | finished {t : τ} (token : h.token = some t) (lease : h.lease.isSome) :
      Step now h (.finished t) ⟨some t, none⟩

section Leases

variable [DecidableEq τ]

/-- The end of the lease a token was last told of. -/
def leaseOf (t : τ) : List (Event τ T) → Option T
  | [] => none
  | e :: log => if e.token = t then e.lease else leaseOf t log

@[simp] theorem leaseOf_cons_self (e : Event τ T) (log : List (Event τ T)) :
    leaseOf e.token (e :: log) = e.lease := by
  simp [leaseOf]

theorem leaseOf_cons_of_ne {e : Event τ T} {t : τ} (h : e.token ≠ t) (log : List (Event τ T)) :
    leaseOf t (e :: log) = leaseOf t log := by
  simp [leaseOf, h]

end Leases

variable [DecidableEq τ] [LinearOrder T]

structure Tracks (log : List (Event τ T)) (now : T) (h : Holder τ T) : Prop where
  /-- The resource knows the last claim's token. -/
  token : h.token = (claims log).head?
  /-- Its lease is the one that token was told of. -/
  lease : ∀ t, h.token = some t → h.lease = leaseOf t log
  /-- Every other token was told of a lease that is over. -/
  ended : ∀ t u, leaseOf t log = some u → h.token ≠ some t → u ≤ now
  /-- No claim repeats a token. -/
  distinct : (claims log).Nodup
  once : ∀ t, log.count (.finished t) ≤ 1
  /-- A token with a lease has not finished. -/
  unfinished : ∀ t, h.token = some t → h.lease.isSome → Event.finished t ∉ log

namespace Tracks

variable {log : List (Event τ T)} {now : T} {h : Holder τ T} {t : τ} {u : T}

theorem nil (now : T) : Tracks ([] : List (Event τ T)) now ⟨none, none⟩ where
  token := rfl
  lease := by simp
  ended := by simp [leaseOf]
  distinct := List.nodup_nil
  once := by simp
  unfinished := by simp

/-! ## Rules -/

theorem tick {later : T} (hl : now ≤ later) (ht : Tracks log now h) : Tracks log later h :=
  { ht with ended := fun t u hu hne => le_trans (ht.ended t u hu hne) hl }

/-- A claim with a fresh token, when no lease runs. -/
theorem claim (ht : Tracks log now h) (hfresh : ∀ e ∈ log, e.token ≠ t)
    (hfree : ∀ u', h.lease = some u' → u' ≤ now) :
    Tracks (.claimed t u :: log) now ⟨some t, some u⟩ where
  token := rfl
  lease t' ht' := by
    obtain rfl : t = t' := Option.some.inj ht'
    exact (leaseOf_cons_self (.claimed t u) log).symm
  ended t' u' hu' hne := by
    have hne' : t ≠ t' := fun e => hne (congrArg some e)
    rw [leaseOf_cons_of_ne (e := .claimed t u) hne'] at hu'
    by_cases htok : h.token = some t'
    · -- the token that is taken over
      exact hfree u' (by rw [ht.lease t' htok, hu'])
    · exact ht.ended t' u' hu' htok
  distinct := by
    have hnot : t ∉ claims log := by
      intro hmem
      obtain ⟨e, he, hec⟩ := List.mem_filterMap.1 hmem
      refine hfresh e he ?_
      cases e <;> simp_all [Event.claim, Event.token]
    exact List.nodup_cons.2 ⟨hnot, ht.distinct⟩
  once t' := by simpa using ht.once t'
  unfinished t' ht' _ := by
    obtain rfl : t = t' := Option.some.inj ht'
    intro hmem
    rcases List.mem_cons.1 hmem with e | hmem
    · cases e
    · exact hfresh _ hmem rfl

/-- An extension by the token that holds the lease. -/
theorem extend (ht : Tracks log now h) (htok : h.token = some t) (hlease : h.lease.isSome) :
    Tracks (.extended t u :: log) now ⟨some t, some u⟩ where
  token := htok ▸ ht.token
  lease t' ht' := by
    obtain rfl : t = t' := Option.some.inj ht'
    exact (leaseOf_cons_self (.extended t u) log).symm
  ended t' u' hu' hne := by
    have hne' : t ≠ t' := fun e => hne (congrArg some e)
    rw [leaseOf_cons_of_ne (e := .extended t u) hne'] at hu'
    exact ht.ended t' u' hu' (htok ▸ hne)
  distinct := ht.distinct
  once t' := by simpa using ht.once t'
  unfinished t' ht' _ := by
    obtain rfl : t = t' := Option.some.inj ht'
    simpa using ht.unfinished t htok hlease

/-- The token that holds the lease finishes. -/
theorem finish (ht : Tracks log now h) (htok : h.token = some t) (hlease : h.lease.isSome) :
    Tracks (.finished t :: log) now ⟨some t, none⟩ where
  token := htok ▸ ht.token
  lease t' ht' := by
    obtain rfl : t = t' := Option.some.inj ht'
    exact (leaseOf_cons_self (.finished t) log).symm
  ended t' u' hu' hne := by
    have hne' : t ≠ t' := fun e => hne (congrArg some e)
    rw [leaseOf_cons_of_ne (e := .finished t) hne'] at hu'
    exact ht.ended t' u' hu' (htok ▸ hne)
  distinct := ht.distinct
  once t' := by
    rw [List.count_cons]
    split
    · next e =>
      obtain rfl : t = t' := by simpa using e
      have hzero := List.count_eq_zero_of_not_mem (ht.unfinished t htok hlease)
      omega
    · exact ht.once t'
  unfinished t' _ hsome := by cases hsome

/-- A step taken by a clock that may be late, claims with fresh tokens. -/
theorem step {h' : Holder τ T} {e : Event τ T} {clock : T} (ht : Tracks log clock h)
    (hs : h.Step now e h') (hnow : now ≤ clock)
    (hfresh : ∀ t ∈ e.claim, ∀ e' ∈ log, e'.token ≠ t) : Tracks (e :: log) clock h' := by
  cases hs with
  | claimed hfree =>
    exact ht.claim (hfresh _ rfl) fun u' hu' => le_trans (hfree u' hu') hnow
  | extended htok hlease => exact ht.extend htok hlease
  | finished htok hlease => exact ht.finish htok hlease

/-! ## What a tracked holder guarantees -/

/-- A lease that is not over is the holder's. -/
theorem holder_of_live (ht : Tracks log now h) (hu : leaseOf t log = some u) (hlive : now < u) :
    h.token = some t ∧ h.lease = some u := by
  have htok : h.token = some t := by
    by_contra hne
    exact absurd (ht.ended t u hu hne) (not_le.2 hlive)
  exact ⟨htok, by rw [ht.lease t htok, hu]⟩

/-- Two leases that are not over are one token's. -/
theorem exclusive {t' : τ} {u' : T} (ht : Tracks log now h) (hu : leaseOf t log = some u)
    (hlive : now < u) (hu' : leaseOf t' log = some u') (hlive' : now < u') : t = t' := by
  have h₁ := (ht.holder_of_live hu hlive).1
  have h₂ := (ht.holder_of_live hu' hlive').1
  exact Option.some.inj (h₁ ▸ h₂)

/-- After a later claim a token holds the resource no more. -/
theorem token_ne_of_superseded (ht : Tracks log now h) (hs : Superseded log t) :
    h.token ≠ some t := by
  obtain ⟨t', hsub⟩ := hs
  have hd := ht.distinct
  rw [ht.token]
  cases hc : claims log with
  | nil => simp
  | cons c cs =>
    rw [hc] at hsub hd
    rintro ⟨⟩
    -- the newest claim is no older one
    have hmem : t ∈ cs := by
      cases hsub with
      | cons _ hsub => exact hsub.subset (by simp)
      | cons_cons _ hsub => exact hsub.subset (by simp)
    exact (List.nodup_cons.1 hd).1 hmem

end Tracks

end Lease
