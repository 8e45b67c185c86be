import Mathlib.Data.Finset.Card
import SheriMl.Lib.Pool

/-!
# The limit on agent threads

`Guards` counts the threads of a session in an atomic counter and keeps their ids in a
set behind a mutex. The two are updated one after the other, so an operation is modelled
as its atomic steps (`CallStep`), and any number of agents run operations in any order
(`step`, over `Lib/Pool`). `spawn_agent` and `resume_agent_from_rollout` hold a
reservation while the thread is created, then commit it with the thread's id, or drop it
when the creation fails; `shutdown_agent`, and `send_input` to a dead agent, release.

The counter is a natural number: a slot is a live reservation or a stored id, and no
machine holds `2^64` of them. Subtraction wraps below zero, as `fetch_sub` does.
-/

namespace SheriMl.Agent

open Pool Transition

variable {ThreadId : Type} [DecidableEq ThreadId]

structure Guards (ThreadId : Type) where
  threadsSet : Finset ThreadId
  totalCount : Nat

namespace Guards

/-- `Guards::default`. -/
def default : Guards ThreadId := ⟨∅, 0⟩

/-- `total_count.fetch_add(1)`. -/
def fetchAdd (g : Guards ThreadId) : Guards ThreadId := { g with totalCount := g.totalCount + 1 }

/-- `total_count.fetch_sub(1)`, on a 64-bit counter. -/
def fetchSub (g : Guards ThreadId) : Guards ThreadId :=
  { g with totalCount := if g.totalCount = 0 then 2 ^ 64 - 1 else g.totalCount - 1 }

/-- `register_spawned_thread`; what `HashSet::insert` answers is not used. -/
def register (g : Guards ThreadId) (threadId : ThreadId) : Guards ThreadId :=
  { g with threadsSet := insert threadId g.threadsSet }

/-- The lock section of `release_spawned_thread`. -/
def remove (g : Guards ThreadId) (threadId : ThreadId) : Guards ThreadId :=
  { g with threadsSet := g.threadsSet.erase threadId }

end Guards

/-- A call in progress, by what it does next. -/
inductive Call (ThreadId : Type)
  /-- `reserve_spawn_slot`. -/
  | reserving (maxThreads : Option Nat)
  /-- The loop of `try_increment_spawned`, with the count it has read. -/
  | incrementing (maxThreads current : Nat)
  /-- An agent holds an active `SpawnReservation`. -/
  | reserved
  /-- `release_spawned_thread`. -/
  | releasing (threadId : ThreadId)
  /-- `release_spawned_thread` after it has removed the id. -/
  | removed

inductive Event (ThreadId : Type)
  | reserve (maxThreads : Option Nat)
  | load
  | limitReached (maxThreads : Nat)
  /-- `inserted` is what `HashSet::insert` answers: the id was not registered before. -/
  | commit (threadId : ThreadId) (inserted : Bool)
  | drop
  | remove (threadId : ThreadId) (removed : Bool)
  | subtract

/-- The atomic operations. -/
inductive CallStep : Guards ThreadId → Call ThreadId → Event ThreadId → Guards ThreadId →
    Multiset (Call ThreadId) → Prop
  | reserveUnlimited {g} :
      CallStep g (.reserving none) (.reserve none) g.fetchAdd {.reserved}
  | load {g maxThreads} :
      CallStep g (.reserving (some maxThreads)) .load g {.incrementing maxThreads g.totalCount}
  | limitReached {g maxThreads current} : maxThreads ≤ current →
      CallStep g (.incrementing maxThreads current) (.limitReached maxThreads) g 0
  | exchange {g maxThreads current} : current < maxThreads → g.totalCount = current →
      CallStep g (.incrementing maxThreads current) (.reserve (some maxThreads)) g.fetchAdd
        {.reserved}
  -- `compare_exchange_weak` may fail although the count is the expected one
  | exchangeFails {g maxThreads current} : current < maxThreads →
      CallStep g (.incrementing maxThreads current) .load g {.incrementing maxThreads g.totalCount}
  | commit {g threadId} :
      CallStep g .reserved (.commit threadId (decide (threadId ∉ g.threadsSet)))
        (g.register threadId) 0
  | drop {g} : CallStep g .reserved .drop g.fetchSub 0
  | remove {g threadId} : threadId ∈ g.threadsSet →
      CallStep g (.releasing threadId) (.remove threadId true) (g.remove threadId) {.removed}
  | removeUnknown {g threadId} : threadId ∉ g.threadsSet →
      CallStep g (.releasing threadId) (.remove threadId false) g 0
  | subtract {g} : CallStep g .removed .subtract g.fetchSub 0

inductive Start : Call ThreadId → Prop
  | reserve (maxThreads : Option Nat) : Start (.reserving maxThreads)
  | release (threadId : ThreadId) : Start (.releasing threadId)

/-- Agents sharing one `Guards`. -/
def step : Config (Guards ThreadId) (Call ThreadId) → Option (Event ThreadId) →
    Config (Guards ThreadId) (Call ThreadId) → Prop :=
  Step Start CallStep

def init : Config (Guards ThreadId) (Call ThreadId) := ⟨.default, 0⟩

/-! ## The account of the slots -/

namespace Call

def isReserved : Call ThreadId → Nat
  | .reserved => 1
  | _ => 0

def isRemoved : Call ThreadId → Nat
  | .removed => 1
  | _ => 0

end Call

/-- The reservations that are neither committed nor dropped. -/
def outstanding (calls : Multiset (Call ThreadId)) : Nat := weigh Call.isReserved calls

/-- The releases that have removed an id and not yet given its slot back. -/
def halfReleased (calls : Multiset (Call ThreadId)) : Nat := weigh Call.isRemoved calls

/-- A commit under an id that is registered already. -/
def Event.isRecommit : Option (Event ThreadId) → Bool
  | some (.commit _ false) => true
  | _ => false

/-- The counter after the operations `past`: a slot for each registered id, each outstanding
reservation, each half-done release, and each commit that registered nothing new. -/
def Accounted (past : List (Option (Event ThreadId))) (g : Guards ThreadId)
    (calls : Multiset (Call ThreadId)) : Prop :=
  g.totalCount = g.threadsSet.card + outstanding calls + halfReleased calls +
    past.countP Event.isRecommit

section Account

variable {g g' : Guards ThreadId} {k : Call ThreadId} {e : Event ThreadId}
  {ks ks' : Multiset (Call ThreadId)} {past ls : List (Option (Event ThreadId))}
  {c c' : Config (Guards ThreadId) (Call ThreadId)} {l : Option (Event ThreadId)}

theorem card_register (g : Guards ThreadId) (threadId : ThreadId) :
    (g.register threadId).threadsSet.card =
      g.threadsSet.card + if threadId ∈ g.threadsSet then 0 else 1 := by
  unfold Guards.register
  split
  · next h => rw [Finset.insert_eq_of_mem h, Nat.add_zero]
  · next h => rw [Finset.card_insert_of_notMem h]

theorem card_remove {threadId : ThreadId} (h : threadId ∈ g.threadsSet) :
    (g.remove threadId).threadsSet.card + 1 = g.threadsSet.card :=
  Finset.card_erase_add_one h

omit [DecidableEq ThreadId] in
theorem totalCount_fetchSub (h : 0 < g.totalCount) :
    g.fetchSub.totalCount + 1 = g.totalCount := by
  have hne : g.totalCount ≠ 0 := Nat.ne_of_gt h
  simp only [Guards.fetchSub, hne, if_false]
  omega

/-- One operation keeps the account. -/
theorem Accounted.op (h : CallStep g k e g' ks') (hacc : Accounted past g (k ::ₘ ks)) :
    Accounted (past ++ [some e]) g' (ks' + ks) := by
  simp only [Accounted, outstanding, halfReleased, weigh_cons, weigh_add, List.countP_append,
    List.countP_singleton] at hacc ⊢
  cases h with
  | reserveUnlimited =>
    simp [Call.isReserved, Call.isRemoved, Event.isRecommit, Guards.fetchAdd] at hacc ⊢
    omega
  | load | limitReached => simpa [Call.isReserved, Call.isRemoved, Event.isRecommit] using hacc
  | exchange =>
    simp [Call.isReserved, Call.isRemoved, Event.isRecommit, Guards.fetchAdd] at hacc ⊢
    omega
  | exchangeFails => simpa [Call.isReserved, Call.isRemoved, Event.isRecommit] using hacc
  | @commit threadId =>
    have hcard := card_register g threadId
    have hcount : (g.register threadId).totalCount = g.totalCount := rfl
    by_cases hid : threadId ∈ g.threadsSet
    · simp [hid, Call.isReserved, Call.isRemoved, Event.isRecommit] at hacc hcard ⊢
      omega
    · simp [hid, Call.isReserved, Call.isRemoved, Event.isRecommit] at hacc hcard ⊢
      omega
  | drop =>
    -- the reservation itself keeps the counter positive
    simp only [Call.isReserved, Call.isRemoved] at hacc
    have hsub := totalCount_fetchSub (g := g) (by omega)
    have hset : g.fetchSub.threadsSet = g.threadsSet := rfl
    simp [Event.isRecommit, hset]
    omega
  | remove hid =>
    have hcard := card_remove hid
    have hcount : ∀ threadId, (g.remove threadId).totalCount = g.totalCount := fun _ => rfl
    simp [Call.isReserved, Call.isRemoved, Event.isRecommit, hcount] at hacc ⊢
    omega
  | removeUnknown => simpa [Call.isReserved, Call.isRemoved, Event.isRecommit] using hacc
  | subtract =>
    simp only [Call.isReserved, Call.isRemoved] at hacc
    have hsub := totalCount_fetchSub (g := g) (by omega)
    have hset : g.fetchSub.threadsSet = g.threadsSet := rfl
    simp [Event.isRecommit, hset]
    omega

omit [DecidableEq ThreadId] in
theorem Accounted.start (h : Start k) (hacc : Accounted past g ks) :
    Accounted (past ++ [none]) g (k ::ₘ ks) := by
  have hlast : (past ++ [none]).countP Event.isRecommit = past.countP Event.isRecommit := by
    simp [List.countP_append, Event.isRecommit]
  cases h with
  | reserve | release =>
    rw [Accounted, hlast]
    simpa [Accounted, outstanding, halfReleased, Call.isReserved, Call.isRemoved] using hacc

theorem Accounted.step (h : step c l c') (hacc : Accounted past c.shared c.calls) :
    Accounted (past ++ [l]) c'.shared c'.calls := by
  cases h with
  | start hk => exact hacc.start hk
  | call hk => exact hacc.op hk

omit [DecidableEq ThreadId] in
theorem accounted_init :
    Accounted [] (init : Config (Guards ThreadId) (Call ThreadId)).shared init.calls := by
  simp [Accounted, init, Guards.default, outstanding, halfReleased]

/-- The account of every run: each commit under a registered id leaks one slot. -/
theorem Accounted.run (h : Run Agent.step init ls c) : Accounted ls c.shared c.calls := by
  exact h.history (I := fun past c => Accounted past c.shared c.calls)
    (fun hacc hstep => hacc.step hstep) [] accounted_init

/-- A slot that an operation gives back is in the counter. -/
theorem Accounted.pos (hacc : Accounted past c.shared c.calls) (h : Agent.step c (some e) c')
    (he : e = .drop ∨ e = .subtract) : 0 < c.shared.totalCount := by
  obtain ⟨k, ks', ks, hks, hop, -⟩ := h.exists_op
  rw [hks] at hacc
  simp only [Accounted, outstanding, halfReleased, weigh_cons] at hacc
  generalize c'.shared = g' at hop
  rcases he with rfl | rfl
  · cases hop
    simp only [Call.isReserved] at hacc
    omega
  · cases hop
    simp only [Call.isRemoved] at hacc
    omega

/-- What a reservation leaves in the counter when it has a limit. -/
theorem totalCount_of_reserve {maxThreads : Nat}
    (h : Agent.step c (some (.reserve (some maxThreads))) c') :
    c'.shared.totalCount ≤ maxThreads := by
  obtain ⟨k, ks', ks, -, hop, -⟩ := h.exists_op
  generalize c'.shared = g' at hop
  cases hop with
  | exchange hlt hcur =>
    simp only [Guards.fetchAdd, hcur]
    exact hlt

theorem totalCount_of_giveBack (hacc : Accounted past c.shared c.calls)
    (h : Agent.step c (some e) c') (he : e = .drop ∨ e = .subtract) :
    c'.shared.totalCount + 1 = c.shared.totalCount := by
  have hpos := hacc.pos h he
  obtain ⟨k, ks', ks, -, hop, -⟩ := h.exists_op
  generalize c'.shared = g' at hop
  rcases he with rfl | rfl
  · cases hop
    exact totalCount_fetchSub hpos
  · cases hop
    exact totalCount_fetchSub hpos

omit [DecidableEq ThreadId] in
theorem countP_isRecommit_eq_zero (hnew : ∀ threadId, some (.commit threadId false) ∉ ls) :
    ls.countP Event.isRecommit = 0 := by
  rw [List.countP_eq_zero]
  intro l hl hrecommit
  match l, hrecommit with
  | some (.commit threadId false), _ => exact hnew threadId hl

/-- Only an unlimited reservation takes the counter past a bound that the limits respect. -/
theorem totalCount_le_of_step {maxThreads : Nat} (hacc : Accounted past c.shared c.calls)
    (hle : c.shared.totalCount ≤ maxThreads) (h : Agent.step c l c')
    (hmax : ∀ limit, l = some (.reserve limit) → ∃ m ≤ maxThreads, limit = some m) :
    c'.shared.totalCount ≤ maxThreads := by
  have hback : ∀ e, l = some e → e = .drop ∨ e = .subtract →
      c'.shared.totalCount ≤ maxThreads := by
    intro e hl he
    subst hl
    have := totalCount_of_giveBack hacc h he
    omega
  have hreserve : ∀ m, l = some (.reserve (some m)) → c'.shared.totalCount ≤ m := by
    intro m hl
    subst hl
    exact totalCount_of_reserve h
  cases h with
  | start => exact hle
  | call hop =>
    cases hop with
    | reserveUnlimited =>
      obtain ⟨m, -, hm⟩ := hmax none rfl
      cases hm
    | exchange =>
      obtain ⟨m, hm, hlimit⟩ := hmax _ rfl
      cases hlimit
      exact (hreserve _ rfl).trans hm
    | drop => exact hback _ rfl (.inl rfl)
    | subtract => exact hback _ rfl (.inr rfl)
    | load => exact hle
    | limitReached => exact hle
    | exchangeFails => exact hle
    | commit => exact hle
    | remove => exact hle
    | removeUnknown => exact hle

theorem totalCount_le_of_run {maxThreads : Nat} (h : Run Agent.step init ls c)
    (hmax : ∀ limit, some (.reserve limit) ∈ ls → ∃ m ≤ maxThreads, limit = some m) :
    c.shared.totalCount ≤ maxThreads := by
  have hrun := h.history (I := fun past c => Accounted past c.shared c.calls ∧
      ((∀ limit, some (.reserve limit) ∈ past → ∃ m ≤ maxThreads, limit = some m) →
        c.shared.totalCount ≤ maxThreads))
    (fun {past s l t} hI hstep => ⟨hI.1.step hstep, fun hpast =>
      totalCount_le_of_step hI.1 (hI.2 fun limit hl => hpast limit (by simp [hl])) hstep
        fun limit hl => hpast limit (by simp [hl])⟩)
    [] ⟨accounted_init, fun _ => Nat.zero_le _⟩
  exact hrun.2 hmax

end Account

/-- In every run whose commits all register a new id, the counter is the number of
registered ids, outstanding reservations and half-done releases; every slot that is given
back was in the counter, and a reservation with a limit stays within it. -/
theorem total_count_accounts_for_slots {ls : List (Option (Event ThreadId))}
    {c : Config (Guards ThreadId) (Call ThreadId)} (h : Run step init ls c)
    (hnew : ∀ threadId, some (.commit threadId false) ∉ ls) :
    c.shared.totalCount =
        c.shared.threadsSet.card + outstanding c.calls + halfReleased c.calls ∧
      (∀ e c', step c (some e) c' → e = .drop ∨ e = .subtract →
        c'.shared.totalCount + 1 = c.shared.totalCount) ∧
      (∀ maxThreads c', step c (some (.reserve (some maxThreads))) c' →
        c'.shared.totalCount ≤ maxThreads) ∧
      ∀ maxThreads, (∀ limit, some (.reserve limit) ∈ ls → ∃ m ≤ maxThreads, limit = some m) →
        c.shared.totalCount ≤ maxThreads := by
  have hacc := Accounted.run h
  refine ⟨?_, fun e c' => totalCount_of_giveBack hacc, fun maxThreads c' => totalCount_of_reserve,
    fun maxThreads => totalCount_le_of_run h⟩
  have hrecommit := countP_isRecommit_eq_zero hnew
  rw [Accounted, hrecommit] at hacc
  exact hacc

theorem run_commit : Run step (init : Config (Guards Nat) (Call Nat))
    [none, some (.reserve none), some (.commit 7 true)] ⟨⟨{7}, 1⟩, 0⟩ :=
  .cons (.start (.reserve none)) (.cons (.alone .reserveUnlimited)
    (.single (.alone (CallStep.commit (g := ⟨∅, 1⟩)))))

theorem total_count_after_commit :
    ∃ c : Config (Guards Nat) (Call Nat),
      Run step init [none, some (.reserve none), some (.commit 7 true)] c ∧
        c.shared.totalCount = 1 ∧ c.shared.threadsSet = {7} ∧
        c.shared.totalCount =
          c.shared.threadsSet.card + outstanding c.calls + halfReleased c.calls :=
  ⟨_, run_commit, rfl, rfl, (total_count_accounts_for_slots run_commit (by simp)).1⟩

/-- While a release stands between its two updates the counter is one higher than the
registered ids and the outstanding reservations. -/
theorem total_count_ahead_of_half_release :
    ¬ ∀ (ls : List (Option (Event Nat))) (c : Config (Guards Nat) (Call Nat)),
      Run step init ls c →
        c.shared.totalCount = c.shared.threadsSet.card + outstanding c.calls := by
  intro hall
  have hrelease : Run step (⟨⟨{7}, 1⟩, 0⟩ : Config (Guards Nat) (Call Nat))
      [none, some (.remove 7 true)] ⟨⟨∅, 1⟩, {.removed}⟩ :=
    .cons (.start (.release 7)) (.single (.alone (CallStep.remove (g := ⟨{7}, 1⟩) (by simp))))
  have h := hall _ _ (run_commit.append hrelease)
  simp [outstanding, Call.isReserved] at h

end SheriMl.Agent
