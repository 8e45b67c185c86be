import SheriMl.Lib.Ranking
import SheriMl.UnifiedExec.ProcessManager

/-!
# Which process is pruned

`process_id_to_prune_from_meta` sorts the processes twice, once to protect the eight
most recently used ones and once to look for the least recently used of the others.
The two orders need not mirror each other where times are equal; what counts is that
the protected ones are recognized by their ids (`Pruned`). With more processes than are
protected there is always one to prune, so the store stays within its bound.
-/

namespace SheriMl.UnifiedExec

open Pool Ranking

/-- `info` without the eight most recently used is `rest`, and what is pruned of it. -/
structure Pruned (info protectedInfo rest : Meta) (victim : Option ProcessId) : Prop where
  isTop : IsTop 8 (fun m => m.2.1) info protectedInfo rest
  unprotected : ∀ id, victim = some id → id ∉ protectedInfo.map (·.1)
  none_iff : victim = none ↔ rest = []
  exitedFirst : ∀ id, victim = some id → (∃ m ∈ rest, m.2.2 = true) →
    ∃ m ∈ rest, m.1 = id ∧ m.2.2 = true ∧ ∀ other ∈ rest, other.2.2 = true → m.2.1 ≤ other.2.1
  leastRecent : ∀ id, victim = some id → (∀ m ∈ rest, m.2.2 = false) →
    ∃ m ∈ rest, m.1 = id ∧ ∀ other ∈ rest, m.2.1 ≤ other.2.1

section Prune

variable {info : Meta} {id : ProcessId}

theorem mem_rest_iff {protectedInfo rest : Meta} (hids : (info.map (·.1)).Nodup)
    (hperm : (protectedInfo ++ rest).Perm info) {m : ProcessId × Nat × Bool} :
    m ∈ rest ↔ m ∈ info ∧ (!(protectedInfo.map (·.1)).contains m.1) = true := by
  have hnodup : ((protectedInfo ++ rest).map (·.1)).Nodup := (hperm.map (·.1)).nodup_iff.2 hids
  rw [List.map_append, List.nodup_append] at hnodup
  obtain ⟨-, -, hdisjoint⟩ := hnodup
  rw [Bool.not_eq_true', ← Bool.not_eq_true, List.contains_iff_mem, ← hperm.mem_iff,
    List.mem_append]
  constructor
  · intro hm
    exact ⟨.inr hm, fun hmem => hdisjoint _ hmem _ (List.mem_map_of_mem hm) rfl⟩
  · rintro ⟨hm | hm, hnot⟩
    · exact absurd (List.mem_map_of_mem hm) hnot
    · exact hm

/-- An exited process outside of the eight, the least recently used one, before a running one. -/
theorem pruned_processIdToPruneFromMeta (hids : (info.map (·.1)).Nodup) :
    ∃ protectedInfo rest, Pruned info protectedInfo rest (processIdToPruneFromMeta info) := by
  obtain ⟨protectedInfo, rest, hprotected, htop⟩ : ∃ protectedInfo rest,
      (info.mergeSort fun a b => decide (b.2.1 ≤ a.2.1)).take 8 = protectedInfo ∧
        IsTop 8 (fun m : ProcessId × Nat × Bool => m.2.1) info protectedInfo rest :=
    ⟨_, _, rfl, isTop_mergeSort 8 _ info⟩
  have hrest := fun m => mem_rest_iff (m := m) hids htop.perm
  refine ⟨protectedInfo, rest, ?_⟩
  unfold processIdToPruneFromMeta
  dsimp only
  rw [hprotected]
  split
  next m hfind =>
    obtain ⟨hm, hpass, hleast⟩ := find?_mergeSort_eq_some hfind
    obtain ⟨hnot, hexited⟩ := Bool.and_eq_true_iff.1 hpass
    have hmrest := (hrest m).2 ⟨hm, hnot⟩
    refine ⟨htop, fun id hid => ?_, ?_, fun id hid _ => ?_, fun id hid hrunning => ?_⟩
    · cases hid
      simpa using hnot
    · exact iff_of_false (fun h => by cases h) (List.ne_nil_of_mem hmrest)
    · cases hid
      refine ⟨m, hmrest, rfl, hexited, fun other hother hexited' => ?_⟩
      obtain ⟨hmem, hnot'⟩ := (hrest other).1 hother
      exact hleast other hmem (Bool.and_eq_true_iff.2 ⟨hnot', hexited'⟩)
    · rw [hrunning m hmrest] at hexited
      cases hexited
  next hnone =>
    have hrunning : ∀ m ∈ rest, m.2.2 = false := by
      intro m hm
      obtain ⟨hmem, hnot⟩ := (hrest m).1 hm
      have hfail := find?_mergeSort_eq_none.1 hnone m hmem
      rwa [hnot, Bool.true_and] at hfail
    cases hfind : (info.mergeSort fun a b => decide (a.2.1 ≤ b.2.1)).find?
        fun m => !(protectedInfo.map (·.1)).contains m.1 with
    | none =>
      refine ⟨htop, fun id hid => (by cases hid), iff_of_true rfl ?_, fun id hid => (by cases hid),
        fun id hid => (by cases hid)⟩
      refine List.eq_nil_iff_forall_not_mem.2 fun m hm => ?_
      obtain ⟨hmem, hnot⟩ := (hrest m).1 hm
      have hfail := find?_mergeSort_eq_none.1 hfind m hmem
      rw [hnot] at hfail
      cases hfail
    | some m =>
      obtain ⟨hm, hnot, hleast⟩ := find?_mergeSort_eq_some hfind
      have hmrest := (hrest m).2 ⟨hm, hnot⟩
      refine ⟨htop, fun id hid => ?_, ?_, fun id hid hexited => ?_, fun id hid _ => ?_⟩
      · cases hid
        simpa using hnot
      · exact iff_of_false (fun h => by cases h) (List.ne_nil_of_mem hmrest)
      · obtain ⟨other, hother, hexited⟩ := hexited
        rw [hrunning other hother] at hexited
        cases hexited
      · cases hid
        refine ⟨m, hmrest, rfl, fun other hother => ?_⟩
        obtain ⟨hmem, hnot'⟩ := (hrest other).1 hother
        exact hleast other hmem hnot'

end Prune

/-! ## The bound -/

section Bound

variable {Process : Type} [DecidableEq Process] {m m' : Manager Process} {k : Call Process}
  {e : Event Process} {ks' : Multiset (Call Process)} {id : ProcessId}

def ProcessStore.size (store : ProcessStore Process) : Nat := store.processes.keys.length

omit [DecidableEq Process] in
theorem size_insert_le (store : ProcessStore Process) (id : ProcessId)
    (entry : ProcessEntry Process) : (store.insert id entry).size ≤ store.size + 1 := by
  simp only [ProcessStore.size, ProcessStore.insert, AList.keys_insert, List.length_cons]
  exact Nat.add_le_add_right (List.length_erase_le) 1

omit [DecidableEq Process] in
theorem size_remove_le (store : ProcessStore Process) (id : ProcessId) :
    (store.remove id).size ≤ store.size := by
  simp only [ProcessStore.size, ProcessStore.remove, AList.keys_erase]
  exact List.length_erase_le

omit [DecidableEq Process] in
theorem size_remove_of_mem {store : ProcessStore Process} (h : id ∈ store.processes) :
    (store.remove id).size + 1 = store.size := by
  simp only [ProcessStore.size, ProcessStore.remove, AList.keys_erase]
  have hpos : 0 < store.processes.keys.length := List.length_pos_of_mem h
  rw [List.length_erase_of_mem h]
  omega

omit [DecidableEq Process] in
theorem size_touch (store : ProcessStore Process) (id : ProcessId) (now : Nat) :
    (store.touch id now).size = store.size := by
  have hids := congrArg Multiset.card (storedIds_touch store id now)
  exact hids

theorem exists_idToPrune {iter : List ((_ : ProcessId) × ProcessEntry Process)}
    (hiter : iter.Perm m.store.processes.entries) (hfull : maxUnifiedExecProcesses ≤ m.store.size) :
    ∃ id ∈ m.store.processes, m.idToPrune iter = some id := by
  have hkeys : ((m.metaOf iter).map (·.1)).Perm m.store.processes.keys := by
    simp only [Manager.metaOf, List.map_map]
    exact hiter.map _
  have hlength : (m.metaOf iter).length = m.store.size := by
    rw [← List.length_map (f := (·.1)), hkeys.length_eq]
    rfl
  obtain ⟨protectedInfo, rest, h⟩ :=
    pruned_processIdToPruneFromMeta (hkeys.nodup_iff.2 (AList.keys_nodup _))
  have hprune : m.idToPrune iter = processIdToPruneFromMeta (m.metaOf iter) :=
    if_neg (Nat.not_lt_of_le hfull)
  have hsome : m.idToPrune iter ≠ none := by
    rw [hprune, Ne, h.none_iff, h.isTop.rest_eq_nil_iff, hlength]
    unfold maxUnifiedExecProcesses at hfull
    omega
  obtain ⟨id, hid⟩ := Option.ne_none_iff_exists'.1 hsome
  exact ⟨id, mem_of_idToPrune hiter hid, hid⟩

theorem size_storeProcess_le {iter : List ((_ : ProcessId) × ProcessEntry Process)}
    {entry : ProcessEntry Process} (hiter : iter.Perm m.store.processes.entries)
    (hm : m.store.size ≤ maxUnifiedExecProcesses) :
    (m.storeProcess (m.idToPrune iter) id entry).store.size ≤ maxUnifiedExecProcesses := by
  refine Nat.le_trans (size_insert_le _ id entry) ?_
  by_cases hfull : maxUnifiedExecProcesses ≤ m.store.size
  · obtain ⟨victim, hvictim, hprune⟩ := exists_idToPrune hiter hfull
    have hremoved := size_remove_of_mem hvictim
    rw [hprune, Option.map_some, Option.getD_some]
    omega
  · have hnone : m.idToPrune iter = none := if_pos (Nat.lt_of_not_le hfull)
    rw [hnone, Option.map_none, Option.getD_none]
    omega

theorem CallStep.size_le (h : CallStep m k e m' ks')
    (hm : m.store.size ≤ maxUnifiedExecProcesses) :
    m'.store.size ≤ maxUnifiedExecProcesses := by
  cases h with
  | store hiter _ => exact size_storeProcess_le hiter hm
  | release | lateRelease => exact Nat.le_trans (size_remove_le _ _) hm
  | prepare =>
    show (m.store.touch _ _).size ≤ _
    rwa [size_touch]
  | refresh hentry =>
    split
    · exact Nat.le_trans (size_remove_le _ _) hm
    · exact hm
  | drain => exact Nat.zero_le _
  | _ => exact hm

/-- What is pruned is no protected process, an exited one where there is one, and the least
recently used; and in every run the store holds no more processes than it may. -/
theorem pruning_bounds_store :
    (∀ info : Meta, (info.map (·.1)).Nodup →
      ∃ protectedInfo rest, Pruned info protectedInfo rest (processIdToPruneFromMeta info)) ∧
    ∀ (ls : List (Option (Event Process))) (c : State Process), Transition.Run step init ls c →
      c.shared.store.size ≤ maxUnifiedExecProcesses := by
  refine ⟨fun info hids => pruned_processIdToPruneFromMeta hids, fun ls c hrun => ?_⟩
  refine hrun.invariant (I := fun c => c.shared.store.size ≤ maxUnifiedExecProcesses) ?_
    (Nat.zero_le _)
  intro c l c' hc hstep
  cases hstep with
  | start => exact hc
  | call hop => exact hop.size_le hc

/-- Ten processes, the second of which has exited, and a request that has begun. -/
theorem pruning_bounds_store_tenProcesses :
    let info : Meta := [(1, 0, false), (2, 10, true), (3, 20, false), (4, 21, false),
      (5, 22, false), (6, 23, false), (7, 24, false), (8, 25, false), (9, 26, false),
      (10, 27, false)]
    (∃ protectedInfo rest, Pruned info protectedInfo rest (processIdToPruneFromMeta info)) ∧
      (⟨.default, {.allocating}⟩ : State Nat).shared.store.size ≤ maxUnifiedExecProcesses := by
  intro info
  obtain ⟨hprune, hbound⟩ := @pruning_bounds_store Nat _
  exact ⟨hprune info (by decide), hbound [none] _ (.single (.start .execCommand))⟩

end Bound

end SheriMl.UnifiedExec
