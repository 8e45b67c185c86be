import Mathlib.Data.Finset.Max
import Mathlib.Data.List.AList
import SheriMl.Lib.Pool
import SheriMl.Lib.Reservation

/-!
# The unified-exec process manager

The store of long-lived processes and the ids reserved for them, behind one mutex that
every operation takes for a short section. `CallStep` lists those sections for the calls
in progress: an `exec_command` request from the allocation of its id to the release or
the storing of it, `write_stdin`, `terminate_all_processes`, and the watcher of network
denials that `store_process` spawns. The processes themselves exit on their own.

A process id is the number whose decimal text the source stores.
-/

namespace SheriMl.UnifiedExec

open Pool Reservation

abbrev ProcessId := Nat

/-- `MAX_UNIFIED_EXEC_PROCESSES`. -/
def maxUnifiedExecProcesses : Nat := 64

variable {Process : Type}

structure ProcessEntry (Process : Type) where
  process : Process
  processId : ProcessId
  lastUsed : Nat

structure ProcessStore (Process : Type) where
  processes : AList fun _ : ProcessId => ProcessEntry Process
  reservedProcessIds : Finset ProcessId

namespace ProcessStore

/-- `ProcessStore::default`. -/
def default : ProcessStore Process := ⟨∅, ∅⟩

/-- `ProcessStore::remove`; the entry it returns is `processes.lookup processId`. -/
def remove (store : ProcessStore Process) (processId : ProcessId) : ProcessStore Process :=
  ⟨store.processes.erase processId, store.reservedProcessIds.erase processId⟩

def insert (store : ProcessStore Process) (processId : ProcessId)
    (entry : ProcessEntry Process) : ProcessStore Process :=
  { store with processes := store.processes.insert processId entry }

def reserve (store : ProcessStore Process) (processId : ProcessId) : ProcessStore Process :=
  { store with reservedProcessIds := Insert.insert processId store.reservedProcessIds }

/-- `last_used = Instant::now()` on the entry of an id. -/
def touch (store : ProcessStore Process) (processId : ProcessId) (now : Nat) :
    ProcessStore Process :=
  match store.processes.lookup processId with
  | some entry => store.insert processId { entry with lastUsed := now }
  | none => store

def storedIds (store : ProcessStore Process) : Multiset ProcessId := store.processes.keys

end ProcessStore

section Stores

variable {store : ProcessStore Process} {id processId : ProcessId} {entry : ProcessEntry Process}
  {names : Multiset ProcessId}

@[simp] theorem storedIds_remove (store : ProcessStore Process) (processId : ProcessId) :
    (store.remove processId).storedIds = store.storedIds.erase processId := by
  simp [ProcessStore.storedIds, ProcessStore.remove, AList.keys_erase]

@[simp] theorem storedIds_insert (store : ProcessStore Process) (processId : ProcessId)
    (entry : ProcessEntry Process) :
    (store.insert processId entry).storedIds = processId ::ₘ store.storedIds.erase processId := by
  simp [ProcessStore.storedIds, ProcessStore.insert, AList.keys_insert]

theorem mem_storedIds : id ∈ store.storedIds ↔ id ∈ store.processes := Iff.rfl

@[simp] theorem storedIds_touch (store : ProcessStore Process) (processId : ProcessId) (now : Nat) :
    (store.touch processId now).storedIds = store.storedIds := by
  unfold ProcessStore.touch
  split
  · next hentry =>
    have hmem : processId ∈ store.storedIds := AList.lookup_isSome.1 (by simp [hentry])
    rw [storedIds_insert, Multiset.cons_erase hmem]
  · rfl

theorem reservedProcessIds_touch (store : ProcessStore Process) (processId : ProcessId)
    (now : Nat) : (store.touch processId now).reservedProcessIds = store.reservedProcessIds := by
  unfold ProcessStore.touch
  split <;> rfl

theorem exclusive_remove (h : Exclusive store.reservedProcessIds (names + store.storedIds))
    (hid : processId ∉ names) :
    Exclusive (store.remove processId).reservedProcessIds
      (names + (store.remove processId).storedIds) := by
  rw [storedIds_remove, ← Multiset.erase_add_right_neg _ hid]
  exact h.erase

theorem exclusive_insert
    (h : Exclusive store.reservedProcessIds (processId ::ₘ names + store.storedIds)) :
    Exclusive (store.insert processId entry).reservedProcessIds
      (names + (store.insert processId entry).storedIds) := by
  rw [Multiset.cons_add] at h
  have hnot : processId ∉ store.storedIds :=
    fun hid => h.notMem_of_cons (Multiset.mem_add.2 (.inr hid))
  rw [storedIds_insert, Multiset.erase_of_notMem hnot, Multiset.add_cons]
  exact h

theorem lookup_remove_of_ne (h : id ≠ processId) :
    (store.remove processId).processes.lookup id = store.processes.lookup id :=
  AList.lookup_erase_ne h

theorem lookup_insert_of_ne (h : id ≠ processId) :
    (store.insert processId entry).processes.lookup id = store.processes.lookup id :=
  AList.lookup_insert_ne h

theorem lookup_remove {found : ProcessEntry Process}
    (h : (store.remove processId).processes.lookup id = some found) :
    store.processes.lookup id = some found := by
  by_cases hid : id = processId
  · subst hid
    simp [ProcessStore.remove] at h
  · rwa [lookup_remove_of_ne hid] at h

theorem lookup_insert {found : ProcessEntry Process}
    (h : (store.insert processId entry).processes.lookup id = some found) :
    id = processId ∧ found = entry ∨ store.processes.lookup id = some found := by
  by_cases hid : id = processId
  · subst hid
    rw [ProcessStore.insert, AList.lookup_insert] at h
    cases h
    exact .inl ⟨rfl, rfl⟩
  · rw [lookup_insert_of_ne hid] at h
    exact .inr h

end Stores

def deterministicProcessId (reserved : Finset ProcessId) : ProcessId :=
  match reserved.max with
  | some m => max m 999 + 1
  | none => 1000

/-- What `allocate_process_id` may pick: the deterministic id, or a random one. -/
def Candidate (reserved : Finset ProcessId) (processId : ProcessId) : Prop :=
  processId = deterministicProcessId reserved ∨ 1000 ≤ processId ∧ processId < 100000

/-! ## Pruning -/

/-- `(id, last_used, has_exited)` of the stored processes. -/
abbrev Meta := List (ProcessId × Nat × Bool)

def processIdToPruneFromMeta (info : Meta) : Option ProcessId :=
  let byRecency := info.mergeSort fun a b => decide (b.2.1 ≤ a.2.1)
  let protectedIds := (byRecency.take 8).map (·.1)
  let lru := info.mergeSort fun a b => decide (a.2.1 ≤ b.2.1)
  match lru.find? fun m => !protectedIds.contains m.1 && m.2.2 with
  | some m => some m.1
  | none => (lru.find? fun m => !protectedIds.contains m.1).map (·.1)

/-- The shared state: the store, and what happened to the processes. -/
structure Manager (Process : Type) where
  store : ProcessStore Process
  exited : Finset Process
  terminated : Finset Process

variable [DecidableEq Process]

namespace Manager

def default : Manager Process := ⟨.default, ∅, ∅⟩

def exit (m : Manager Process) (p : Process) : Manager Process :=
  { m with exited := insert p m.exited }

def terminate (m : Manager Process) (p : Process) : Manager Process :=
  { m with terminated := insert p m.terminated }

def remove (m : Manager Process) (processId : ProcessId) : Manager Process :=
  { m with store := m.store.remove processId }

def metaOf (m : Manager Process) (iter : List ((_ : ProcessId) × ProcessEntry Process)) : Meta :=
  iter.map fun e => (e.1, e.2.lastUsed, decide (e.2.process ∈ m.exited))

/-- `prune_processes_if_needed`, the id it removes; `iter` is the order in which the map
is iterated. -/
def idToPrune (m : Manager Process) (iter : List ((_ : ProcessId) × ProcessEntry Process)) :
    Option ProcessId :=
  if m.store.processes.keys.length < maxUnifiedExecProcesses then none
  else processIdToPruneFromMeta (m.metaOf iter)

/-- The lock section of `store_process`: prune, then insert. -/
def storeProcess (m : Manager Process) (pruned : Option ProcessId) (processId : ProcessId)
    (entry : ProcessEntry Process) : Manager Process :=
  { m with store :=
      ((pruned.map m.store.remove).getD m.store).insert processId entry }

/-- The entry that a removal takes out. -/
def prunedProcess (m : Manager Process) (pruned : Option ProcessId) : Option Process :=
  (pruned.bind m.store.processes.lookup).map (·.process)

/-- The lock section of `terminate_all_processes`. -/
def drain (m : Manager Process) : Manager Process := { m with store := ⟨∅, ∅⟩ }

/-- The processes that `terminate_all_processes` takes out, in the order of the map. -/
def drained (iter : List ((_ : ProcessId) × ProcessEntry Process)) : List Process :=
  iter.map (·.2.process)

end Manager

/-! ## Calls and their steps -/

/-- A call in progress, by what it does next. -/
inductive Call (Process : Type)
  /-- `allocate_process_id`, for an `exec_command` request. -/
  | allocating
  /-- The request holds its id; its process is not open yet. -/
  | holding (processId : ProcessId)
  /-- `exec_command` collects the first output of its process. -/
  | opened (processId : ProcessId) (process : Process)
  /-- A deferred network rejection: the request terminates its process. -/
  | rejected (processId : ProcessId) (process : Process)
  /-- The request is about to call `release_process_id`. -/
  | releasing (processId : ProcessId)
  /-- The request is about to call `store_process`. -/
  | storing (processId : ProcessId) (process : Process)
  /-- `store_process` after its lock section, with the process it has pruned. -/
  | pruned (process : Process)
  /-- `spawn_network_denial_watcher`. -/
  | watching (processId : ProcessId) (process : Process)
  /-- The watcher has terminated the process and is about to call `release_process_id`. -/
  | lateReleasing (processId : ProcessId) (process : Process)
  /-- `write_stdin`, before `prepare_process_handles`. -/
  | writing (processId : ProcessId)
  /-- `write_stdin`, before `refresh_process_state`. -/
  | polling (processId : ProcessId)
  /-- `terminate_all_processes`, before its lock section. -/
  | terminatingAll
  /-- `terminate_all_processes`, with the processes it has still to terminate. -/
  | terminating (processes : List Process)
  /-- A process that runs. -/
  | running (process : Process)

/-- The steps the statements speak of; the others are `other`. -/
inductive Event (Process : Type)
  | allocate (processId : ProcessId)
  | release (processId : ProcessId)
  | lateRelease (processId : ProcessId) (process : Process)
  | store (processId : ProcessId)
  | terminateAll
  | other

open Manager in
inductive CallStep : Manager Process → Call Process → Event Process → Manager Process →
    Multiset (Call Process) → Prop
  | allocate {m processId} : Candidate m.store.reservedProcessIds processId →
      processId ∉ m.store.reservedProcessIds →
      CallStep m .allocating (.allocate processId)
        { m with store := m.store.reserve processId } {.holding processId}
  -- the id is taken: `continue`
  | allocateRetry {m} : CallStep m .allocating .other m {.allocating}
  -- the handler rejects the command or applies it as a patch, or the process does not open
  | fail {m processId} : CallStep m (.holding processId) .other m {.releasing processId}
  -- an error of `intercept_apply_patch`, or a cancelled turn
  | abandon {m processId} : CallStep m (.holding processId) .other m 0
  | openSession {m processId process} :
      CallStep m (.holding processId) .other m {.opened processId process, .running process}
  | abandonOpened {m processId process} : CallStep m (.opened processId process) .other m 0
  | finishEarly {m processId process} : process ∈ m.exited →
      CallStep m (.opened processId process) .other m {.releasing processId}
  | reject {m processId process} : process ∉ m.exited →
      CallStep m (.opened processId process) .other m {.rejected processId process}
  | keep {m processId process} : process ∉ m.exited →
      CallStep m (.opened processId process) .other m {.storing processId process}
  | terminateRejected {m processId process} :
      CallStep m (.rejected processId process) .other (m.terminate process)
        {.releasing processId}
  | release {m processId} :
      CallStep m (.releasing processId) (.release processId) (m.remove processId) 0
  | store {m processId process startedAt iter} {watchers : Multiset (Call Process)} :
      iter.Perm m.store.processes.entries →
      (watchers = 0 ∨ watchers = {.watching processId process}) →
      CallStep m (.storing processId process) (.store processId)
        (m.storeProcess (m.idToPrune iter) processId ⟨process, processId, startedAt⟩)
        (((m.prunedProcess (m.idToPrune iter)).elim 0 fun p => {.pruned p}) + watchers)
  | terminatePruned {m process} : CallStep m (.pruned process) .other (m.terminate process) 0
  | watchedExit {m processId process} : process ∈ m.exited ∨ process ∈ m.terminated →
      CallStep m (.watching processId process) .other m 0
  | denial {m processId process} :
      CallStep m (.watching processId process) .other (m.terminate process)
        {.lateReleasing processId process}
  | lateRelease {m processId process} :
      CallStep m (.lateReleasing processId process) (.lateRelease processId process)
        (m.remove processId) 0
  | prepare {m processId now} : processId ∈ m.store.processes →
      CallStep m (.writing processId) .other
        { m with store := m.store.touch processId now } {.polling processId}
  | prepareUnknown {m processId} : processId ∉ m.store.processes →
      CallStep m (.writing processId) .other m 0
  -- `StdinClosed` or `WriteToStdin`
  | writeFails {m processId} : CallStep m (.polling processId) .other m 0
  | refresh {m processId entry} : m.store.processes.lookup processId = some entry →
      CallStep m (.polling processId) .other
        (if entry.process ∈ m.exited then m.remove entry.processId else m) 0
  | refreshUnknown {m processId} : processId ∉ m.store.processes →
      CallStep m (.polling processId) .other m 0
  | drain {m iter} : iter.Perm m.store.processes.entries →
      CallStep m .terminatingAll .terminateAll m.drain {.terminating (drained iter)}
  | terminateNext {m process rest} :
      CallStep m (.terminating (process :: rest)) .other (m.terminate process)
        {.terminating rest}
  | exit {m process} : CallStep m (.running process) .other (m.exit process) 0

inductive Start : Call Process → Prop
  | execCommand : Start .allocating
  | writeStdin (processId : ProcessId) : Start (.writing processId)
  | terminateAllProcesses : Start .terminatingAll

abbrev State (Process : Type) := Config (Manager Process) (Call Process)

def step : State Process → Option (Event Process) → State Process → Prop := Step Start CallStep

def init : State Process := ⟨.default, 0⟩

/-! ## Who uses an id -/

/-- The id that a request holds. -/
def Call.ids : Call Process → Multiset ProcessId
  | .holding processId => {processId}
  | .opened processId _ => {processId}
  | .rejected processId _ => {processId}
  | .releasing processId => {processId}
  | .storing processId _ => {processId}
  | _ => 0

def heldIds (calls : Multiset (Call Process)) : Multiset ProcessId := weigh Call.ids calls

/-- What one step does to the store, and to the ids held by the call that takes it. -/
inductive Effect (m : Manager Process) : Multiset ProcessId → Event Process →
    ProcessStore Process → Multiset ProcessId → Prop
  /-- The request goes on, or ends without giving its id back. -/
  | keep {ids ids' : Multiset ProcessId} : ids' ≤ ids → Effect m ids .other m.store ids'
  | allocate {processId : ProcessId} : processId ∉ m.store.reservedProcessIds →
      Effect m 0 (.allocate processId) (m.store.reserve processId) {processId}
  | release {processId : ProcessId} :
      Effect m {processId} (.release processId) (m.store.remove processId) 0
  | lateRelease {processId : ProcessId} {process : Process} :
      Effect m 0 (.lateRelease processId process) (m.store.remove processId) 0
  | store {processId : ProcessId} {entry : ProcessEntry Process}
      {pruned : Option ProcessId} : entry.processId = processId →
      (∀ id, pruned = some id → id ∈ m.store.processes) →
      Effect m {processId} (.store processId)
        (((pruned.map m.store.remove).getD m.store).insert processId entry) 0
  | touch {processId : ProcessId} {now : Nat} :
      Effect m 0 .other (m.store.touch processId now) 0
  | removeExited {processId : ProcessId} {entry : ProcessEntry Process} :
      m.store.processes.lookup processId = some entry → entry.process ∈ m.exited →
      Effect m 0 .other (m.store.remove entry.processId) 0
  | drain : Effect m 0 .terminateAll ⟨∅, ∅⟩ 0

section Effects

variable {m m' : Manager Process} {k : Call Process} {e : Event Process}
  {ks ks' : Multiset (Call Process)} {id processId : ProcessId}

theorem mem_of_processIdToPruneFromMeta {info : Meta}
    (h : processIdToPruneFromMeta info = some id) : id ∈ info.map (·.1) := by
  unfold processIdToPruneFromMeta at h
  have hlru : ∀ {p : ProcessId × Nat × Bool → Bool} {m},
      (info.mergeSort fun a b => decide (a.2.1 ≤ b.2.1)).find? p = some m → m ∈ info :=
    fun hfind => List.mem_mergeSort.1 (List.mem_of_find?_eq_some hfind)
  dsimp only at h
  split at h
  · next hfind =>
    cases h
    exact List.mem_map_of_mem (hlru hfind)
  · obtain ⟨m, hfind, rfl⟩ := Option.map_eq_some_iff.1 h
    exact List.mem_map_of_mem (hlru hfind)

theorem mem_of_idToPrune {iter : List ((_ : ProcessId) × ProcessEntry Process)}
    (hiter : iter.Perm m.store.processes.entries) (h : m.idToPrune iter = some id) :
    id ∈ m.store.processes := by
  unfold Manager.idToPrune at h
  split at h
  · cases h
  · have hmem := mem_of_processIdToPruneFromMeta h
    simp only [Manager.metaOf, List.map_map, List.mem_map, Function.comp_apply] at hmem
    obtain ⟨e, he, rfl⟩ := hmem
    exact List.mem_map_of_mem (hiter.mem_iff.1 he)

theorem CallStep.effect (h : CallStep m k e m' ks') :
    Effect m k.ids e m'.store (heldIds ks') := by
  have hnil : heldIds (0 : Multiset (Call Process)) = 0 := weigh_zero _
  have hsingle : ∀ k : Call Process, heldIds {k} = k.ids := weigh_singleton _
  cases h with
  | allocate _ hfree =>
    rw [hsingle]
    exact .allocate hfree
  | allocateRetry => exact .keep (hsingle _).le
  | fail => exact .keep (hsingle _).le
  | abandon => exact .keep (Multiset.zero_le _)
  | openSession =>
    refine .keep (le_of_eq ?_)
    simp [heldIds, Multiset.insert_eq_cons, Call.ids]
  | abandonOpened => exact .keep (Multiset.zero_le _)
  | finishEarly => exact .keep (hsingle _).le
  | reject => exact .keep (hsingle _).le
  | keep => exact .keep (hsingle _).le
  | terminateRejected => exact .keep (hsingle _).le
  | release => exact .release
  | @store processId process startedAt iter watchers hiter hwatchers =>
    have hids : heldIds (((m.prunedProcess (m.idToPrune iter)).elim 0 fun p => {Call.pruned p}) +
        watchers) = 0 := by
      have hpruned : heldIds ((m.prunedProcess (m.idToPrune iter)).elim 0
          fun p => {Call.pruned p}) = 0 := by
        cases m.prunedProcess (m.idToPrune iter) with
        | none => exact hnil
        | some p => exact hsingle _
      rw [heldIds, weigh_add, ← heldIds, hpruned, zero_add]
      rcases hwatchers with rfl | rfl
      · exact hnil
      · exact hsingle _
    rw [hids]
    exact .store rfl fun id hid => mem_of_idToPrune hiter hid
  | terminatePruned | watchedExit => exact .keep (Multiset.zero_le _)
  | denial => exact .keep (hsingle _).le
  | lateRelease => exact .lateRelease
  | prepare =>
    rw [hsingle]
    exact .touch
  | prepareUnknown | writeFails => exact .keep (Multiset.zero_le _)
  | refresh hentry =>
    rw [hnil]
    split
    · next hexited => exact .removeExited hentry hexited
    · exact .keep le_rfl
  | refreshUnknown => exact .keep (Multiset.zero_le _)
  | drain =>
    rw [hsingle]
    exact .drain
  | terminateNext => exact .keep (hsingle _).le
  | exit => exact .keep (Multiset.zero_le _)

end Effects

/-! ## The invariant -/

/-- The processes that a call in progress is about to terminate. -/
def Call.toTerminate : Call Process → List Process
  | .rejected _ process => [process]
  | .pruned process => [process]
  | .terminating processes => processes
  | _ => []

/-- The process has exited, or has been terminated, or a call in progress terminates it. -/
def Ending (m : Manager Process) (calls : Multiset (Call Process)) (p : Process) : Prop :=
  p ∈ m.exited ∨ p ∈ m.terminated ∨ ∃ k ∈ calls, p ∈ k.toTerminate

/-- Ids in use are distinct and reserved, an entry carries the id it is stored under, and a
watcher releases an id after it has terminated its process. -/
structure Consistent (m : Manager Process) (calls : Multiset (Call Process)) : Prop where
  exclusive : Exclusive m.store.reservedProcessIds (heldIds calls + m.store.storedIds)
  keyed : ∀ id entry, m.store.processes.lookup id = some entry → entry.processId = id
  late : ∀ id p, Call.lateReleasing id p ∈ calls → p ∈ m.terminated

/-- `terminate_all_processes` finds no request that still holds an id, and a watcher that
releases an id finds it unused, or used by its own process. -/
def Timely (c : State Process) : Option (Event Process) → Prop
  | some .terminateAll => heldIds c.calls = 0
  | some (.lateRelease processId process) =>
    processId ∉ heldIds c.calls ∧
      ∀ entry, c.shared.store.processes.lookup processId = some entry → entry.process = process
  | _ => True

section Invariant

variable {m m' : Manager Process} {k : Call Process} {e : Event Process}
  {ks ks' : Multiset (Call Process)} {c c' : State Process} {l : Option (Event Process)}

omit [DecidableEq Process] in
theorem heldIds_cons (k : Call Process) (ks : Multiset (Call Process)) :
    heldIds (k ::ₘ ks) = k.ids + heldIds ks := weigh_cons _ _ _

omit [DecidableEq Process] in
theorem heldIds_add (ks ks' : Multiset (Call Process)) :
    heldIds (ks' + ks) = heldIds ks' + heldIds ks := weigh_add _ _ _

omit [DecidableEq Process] in
theorem Consistent.notMem_heldIds (h : Consistent m ks) {id : ProcessId}
    (hid : id ∈ m.store.processes) : id ∉ heldIds ks :=
  fun hheld => Multiset.disjoint_left.1 (Multiset.nodup_add.1 h.exclusive.nodup).2.2 hheld
    (mem_storedIds.2 hid)

theorem Consistent.exclusive_op (hc : Consistent m (k ::ₘ ks)) (h : CallStep m k e m' ks')
    (ht : Timely ⟨m, k ::ₘ ks⟩ (some e)) :
    Exclusive m'.store.reservedProcessIds (heldIds (ks' + ks) + m'.store.storedIds) := by
  have hex := hc.exclusive
  rw [heldIds_cons] at hex
  rw [heldIds_add]
  have heff := h.effect
  generalize hids : k.ids = ids at heff hex
  generalize m'.store = store' at heff
  generalize heldIds ks' = ids' at heff
  cases heff with
  | keep hle => exact hex.forget (by gcongr)
  | @allocate id hfree =>
    rw [zero_add] at hex
    rw [Multiset.singleton_add, Multiset.cons_add]
    exact hex.acquire hfree
  | @release id =>
    rw [Multiset.singleton_add, Multiset.cons_add] at hex
    have hnot : id ∉ m.store.storedIds :=
      fun hid => hex.notMem_of_cons (Multiset.mem_add.2 (.inr hid))
    rw [zero_add, storedIds_remove, Multiset.erase_of_notMem hnot]
    exact hex.release
  | @lateRelease id process =>
    rw [zero_add] at hex ⊢
    have hnot : id ∉ heldIds ks := by
      have := ht.1
      rw [heldIds_cons, hids, zero_add] at this
      exact this
    exact exclusive_remove hex hnot
  | @store id entry pruned hentry hpruned =>
    rw [zero_add]
    cases pruned with
    | none => exact exclusive_insert hex
    | some q =>
      have hnot := hc.notMem_heldIds (hpruned q rfl)
      rw [heldIds_cons, hids] at hnot
      exact exclusive_insert (exclusive_remove hex hnot)
  | touch =>
    rw [zero_add] at hex ⊢
    rw [storedIds_touch, reservedProcessIds_touch]
    exact hex
  | @removeExited id entry hentry =>
    rw [zero_add] at hex ⊢
    have hmem : entry.processId ∈ m.store.processes := by
      rw [hc.keyed _ _ hentry]
      exact AList.lookup_isSome.1 (by simp [hentry])
    have hnot := hc.notMem_heldIds hmem
    rw [heldIds_cons, hids, zero_add] at hnot
    exact exclusive_remove hex hnot
  | drain =>
    have hheld : heldIds (k ::ₘ ks) = 0 := ht
    rw [heldIds_cons, hids, zero_add] at hheld
    rw [hheld]
    exact .empty _

theorem Consistent.keyed_op (hc : Consistent m (k ::ₘ ks)) (h : CallStep m k e m' ks')
    (id : ProcessId) (entry : ProcessEntry Process)
    (hentry : m'.store.processes.lookup id = some entry) : entry.processId = id := by
  have heff := h.effect
  generalize k.ids = ids at heff
  generalize m'.store = store' at heff hentry
  generalize heldIds ks' = ids' at heff
  cases heff with
  | keep => exact hc.keyed _ _ hentry
  | allocate => exact hc.keyed _ _ hentry
  | release | lateRelease => exact hc.keyed _ _ (lookup_remove hentry)
  | @store processId new pruned hnew =>
    rcases lookup_insert hentry with ⟨rfl, rfl⟩ | hold
    · exact hnew
    · cases pruned with
      | none => exact hc.keyed _ _ hold
      | some q => exact hc.keyed _ _ (lookup_remove hold)
  | @touch processId now =>
    unfold ProcessStore.touch at hentry
    split at hentry
    · next old hold =>
      rcases lookup_insert hentry with ⟨rfl, rfl⟩ | hsame
      · exact hc.keyed _ old hold
      · exact hc.keyed _ _ hsame
    · exact hc.keyed _ _ hentry
  | removeExited => exact hc.keyed _ _ (lookup_remove hentry)
  | drain => simp at hentry

theorem CallStep.terminated_subset (h : CallStep m k e m' ks') : m.terminated ⊆ m'.terminated := by
  cases h with
  | terminateRejected | terminatePruned | denial | terminateNext => exact Finset.subset_insert _ _
  | refresh => split <;> exact subset_rfl
  | _ => exact subset_rfl

theorem Consistent.late_op (hc : Consistent m (k ::ₘ ks)) (h : CallStep m k e m' ks')
    (id : ProcessId) (p : Process) (hmem : Call.lateReleasing id p ∈ ks' + ks) :
    p ∈ m'.terminated := by
  rcases Multiset.mem_add.1 hmem with hnew | hold
  · cases h with
    | denial =>
      simp only [Multiset.mem_singleton, Call.lateReleasing.injEq] at hnew
      exact hnew.2 ▸ Finset.mem_insert_self _ _
    | @store processId process startedAt iter watchers _ hwatchers =>
      rcases hwatchers with rfl | rfl
      · cases hpruned : m.prunedProcess (m.idToPrune iter) <;> simp [hpruned] at hnew
      · cases hpruned : m.prunedProcess (m.idToPrune iter) <;> simp [hpruned] at hnew
    | openSession => simp at hnew
    | _ => simp at hnew
  · exact h.terminated_subset (hc.late id p (Multiset.mem_cons_of_mem hold))

theorem Consistent.op (hc : Consistent m (k ::ₘ ks)) (h : CallStep m k e m' ks')
    (ht : Timely ⟨m, k ::ₘ ks⟩ (some e)) : Consistent m' (ks' + ks) :=
  ⟨hc.exclusive_op h ht, hc.keyed_op h, hc.late_op h⟩

omit [DecidableEq Process] in
/-- A request that gives its id back, or stores its process under it, finds nothing stored
under the id. -/
theorem Consistent.lookup_of_held (hc : Consistent m (k ::ₘ ks)) {id : ProcessId}
    (hids : k.ids = {id}) : m.store.processes.lookup id = none := by
  rw [AList.lookup_eq_none]
  intro hmem
  refine hc.notMem_heldIds hmem ?_
  rw [heldIds_cons, hids]
  simp

omit [DecidableEq Process] in
theorem Consistent.ne_of_held (hc : Consistent m (k ::ₘ ks)) {id processId : ProcessId}
    {entry : ProcessEntry Process} (hids : k.ids = {processId})
    (hentry : m.store.processes.lookup id = some entry) : id ≠ processId := by
  rintro rfl
  rw [hc.lookup_of_held hids] at hentry
  cases hentry

theorem Consistent.stored_or_ending (hc : Consistent m (k ::ₘ ks)) (h : CallStep m k e m' ks')
    (ht : Timely ⟨m, k ::ₘ ks⟩ (some e)) {id : ProcessId} {entry : ProcessEntry Process}
    (hentry : m.store.processes.lookup id = some entry) :
    (∃ entry', m'.store.processes.lookup id = some entry' ∧ entry'.process = entry.process) ∨
      Ending m' (ks' + ks) entry.process := by
  cases h with
  | @release processId =>
    have hne : id ≠ processId := hc.ne_of_held rfl hentry
    exact .inl ⟨entry, by rwa [Manager.remove, lookup_remove_of_ne hne], rfl⟩
  | @store processId process startedAt iter watchers hiter =>
    have hne : id ≠ processId := hc.ne_of_held rfl hentry
    cases hpruned : m.idToPrune iter with
    | none => exact .inl ⟨entry, by rwa [Manager.storeProcess, lookup_insert_of_ne hne], rfl⟩
    | some q =>
      by_cases hid : id = q
      · subst hid
        refine .inr (.inr (.inr ⟨.pruned entry.process, ?_, by simp [Call.toTerminate]⟩))
        simp [Manager.prunedProcess, hentry]
      · refine .inl ⟨entry, ?_, rfl⟩
        rw [Manager.storeProcess, lookup_insert_of_ne hne, Option.map_some, Option.getD_some,
          lookup_remove_of_ne hid]
        exact hentry
  | @lateRelease processId process =>
    by_cases hid : id = processId
    · subst hid
      rw [ht.2 _ hentry]
      exact .inr (.inr (.inl (hc.late id process (Multiset.mem_cons_self _ _))))
    · exact .inl ⟨entry, by rwa [Manager.remove, lookup_remove_of_ne hid], rfl⟩
  | @prepare processId now =>
    refine .inl ?_
    by_cases hid : id = processId
    · subst hid
      refine ⟨{ entry with lastUsed := now }, ?_, rfl⟩
      simp [ProcessStore.touch, hentry, ProcessStore.insert]
    · refine ⟨entry, ?_, rfl⟩
      simp only [ProcessStore.touch]
      split
      · rwa [lookup_insert_of_ne hid]
      · exact hentry
  | @refresh processId found hfound =>
    split
    · next hexited =>
      by_cases hid : id = processId
      · subst hid
        rw [hfound] at hentry
        cases hentry
        exact .inr (.inl hexited)
      · refine .inl ⟨entry, ?_, rfl⟩
        rwa [Manager.remove, hc.keyed _ _ hfound, lookup_remove_of_ne hid]
    · exact .inl ⟨entry, hentry, rfl⟩
  | @drain iter hiter =>
    refine .inr (.inr (.inr ⟨_, Multiset.mem_add.2 (.inl (Multiset.mem_singleton_self _)), ?_⟩))
    have hmem := hiter.mem_iff.2 (AList.mem_lookup_iff.1 hentry)
    exact List.mem_map_of_mem (f := fun e => e.2.process) hmem
  | _ => exact .inl ⟨entry, hentry, rfl⟩

omit [DecidableEq Process] in
theorem consistent_init : Consistent (init : State Process).shared init.calls where
  exclusive := .empty _
  keyed := by simp [init, Manager.default, ProcessStore.default]
  late := by simp [init]

theorem Consistent.step (hc : Consistent c.shared c.calls) (h : UnifiedExec.step c l c')
    (ht : Timely c l) : Consistent c'.shared c'.calls := by
  cases h with
  | @start m k ks hk =>
    have hids : heldIds (k ::ₘ ks) = heldIds ks := by
      rw [heldIds_cons]
      cases hk <;> exact zero_add _
    refine ⟨hids ▸ hc.exclusive, hc.keyed, fun id p hmem => ?_⟩
    rcases Multiset.mem_cons.1 hmem with heq | hmem
    · cases hk <;> cases heq
    · exact hc.late id p hmem
  | call hop => exact hc.op hop ht

end Invariant

def timelyStep (c : State Process) (l : Option (Event Process)) (c' : State Process) : Prop :=
  step c l c' ∧ Timely c l

/-- In every run whose steps are taken in time, the ids held by requests and those of the
stored processes are distinct, stored ids are reserved, `store_process` overwrites nothing,
and a process leaves the store only to end. -/
theorem process_ids_exclusive {ls : List (Option (Event Process))} {c : State Process}
    (h : Transition.Run timelyStep init ls c) :
    (heldIds c.calls + c.shared.store.storedIds).Nodup ∧
      (∀ id ∈ c.shared.store.processes, id ∈ c.shared.store.reservedProcessIds) ∧
      ∀ l c', timelyStep c l c' →
        (∀ id, l = some (.store id) → id ∉ c.shared.store.processes) ∧
        ∀ id entry, c.shared.store.processes.lookup id = some entry →
          (∃ entry', c'.shared.store.processes.lookup id = some entry' ∧
            entry'.process = entry.process) ∨
          Ending c'.shared c'.calls entry.process := by
  have hc : Consistent c.shared c.calls :=
    h.invariant (I := fun c => Consistent c.shared c.calls)
      (fun hc hstep => hc.step hstep.1 hstep.2) consistent_init
  refine ⟨hc.exclusive.nodup, fun id hid => hc.exclusive.reserved id ?_, ?_⟩
  · exact Multiset.mem_add.2 (.inr (mem_storedIds.2 hid))
  intro l c' hstep
  obtain ⟨hstep, ht⟩ := hstep
  cases hstep with
  | start => exact ⟨fun id hl => (by cases hl), fun id entry hentry => .inl ⟨entry, hentry, rfl⟩⟩
  | call hop =>
    refine ⟨fun id hl => ?_, fun id entry hentry => hc.stored_or_ending hop ht hentry⟩
    cases hl
    cases hop with
    | store => exact AList.lookup_eq_none.1 (hc.lookup_of_held rfl)

/-- One request, up to the storing of its process. -/
theorem process_ids_exclusive_of_stored :
    ∃ (ls : List (Option (Event Nat))) (c : State Nat), Transition.Run timelyStep init ls c ∧
      c.shared.store.processes.keys = [1000] ∧
      ∀ id ∈ c.shared.store.processes, id ∈ c.shared.store.reservedProcessIds := by
  have hopened (m : Manager Nat) : CallStep m (.holding 1000) .other m
      {.opened 1000 7, .running 7} := .openSession
  have hpruned : List.Perm [] (∅ : AList fun _ : ProcessId => ProcessEntry Nat).entries := .refl _
  have hrun : Transition.Run timelyStep (init : State Nat)
      [none, some (.allocate 1000), some .other, some .other, some (.store 1000)]
      ⟨⟨⟨AList.singleton 1000 ⟨7, 1000, 0⟩, {1000}⟩, ∅, ∅⟩, (0 + 0) + {.running 7}⟩ :=
    .cons ⟨.start .execCommand, trivial⟩
      (.cons ⟨.alone (.allocate (.inl rfl) (by simp [Manager.default, ProcessStore.default])),
        trivial⟩
      (.cons ⟨.alone (hopened _), trivial⟩
      (.cons ⟨.call (.keep (by simp [Manager.default])), trivial⟩
      (.single ⟨.next (.store hpruned (.inl rfl)), trivial⟩))))
  have h := process_ids_exclusive hrun
  exact ⟨_, _, hrun, rfl, h.2.1⟩

/-- `terminate_all_processes` while a request holds its id: the next request may get the
same id. -/
theorem process_id_held_twice :
    ¬ ∀ (ls : List (Option (Event Nat))) (c : State Nat), Transition.Run step init ls c →
      (heldIds c.calls + c.shared.store.storedIds).Nodup := by
  intro hall
  have hrun : Transition.Run step (init : State Nat)
      [none, some (.allocate 1000), none, some .terminateAll, none, some (.allocate 1000)]
      ⟨⟨⟨∅, {1000}⟩, ∅, ∅⟩, {.holding 1000} + ({.terminating []} + {.holding 1000})⟩ :=
    .cons (.start .execCommand) (.cons (.alone (.allocate (.inl rfl) (by simp
        [Manager.default, ProcessStore.default])))
      (.cons (.start .terminateAllProcesses) (.cons (.call (.drain (.refl _)))
        (.cons (.start .execCommand) (.single (.call (.allocate (.inl rfl) (by simp
          [Manager.drain]))))))))
  have h := hall _ _ hrun
  simp [heldIds, Call.ids, ProcessStore.storedIds] at h

end SheriMl.UnifiedExec
