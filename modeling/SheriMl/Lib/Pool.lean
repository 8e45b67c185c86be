import Mathlib.Algebra.BigOperators.Group.Multiset.Basic
import SheriMl.Lib.Transition

/-!
# Calls in progress over shared state

Any number of calls work on one shared state `σ`. A call is known by what it is about
to do (`κ`), so the calls in progress form a multiset. A step starts a call, or lets
one call take its next atomic operation, after which zero, one or more calls stand in
its place. `weigh` adds up what the calls hold: invariants of such a system relate the
shared state to a few of these sums. An invariant that speaks of the calls one by one survives a step
if it survives one operation in the presence of a call that stands by (`Step.history`).
-/

namespace Pool

universe u v w

variable {σ : Type u} {κ : Type v} {ι : Type w}

/-- The shared state and the calls in progress. -/
structure Config (σ : Type u) (κ : Type v) where
  shared : σ
  calls : Multiset κ

/-- `start k`: a call may begin as `k`. `op s k l s' ks'`: from the shared state `s` the
call `k` performs the operation `l`, which leaves `s'` and `ks'` in its place. -/
inductive Step (start : κ → Prop) (op : σ → κ → ι → σ → Multiset κ → Prop) :
    Config σ κ → Option ι → Config σ κ → Prop
  | start {s : σ} {k : κ} {ks : Multiset κ} :
      start k → Step start op ⟨s, ks⟩ none ⟨s, k ::ₘ ks⟩
  | call {s s' : σ} {k : κ} {l : ι} {ks' ks : Multiset κ} :
      op s k l s' ks' → Step start op ⟨s, k ::ₘ ks⟩ (some l) ⟨s', ks' + ks⟩

section Steps

variable {start : κ → Prop} {op : σ → κ → ι → σ → Multiset κ → Prop}
  {c c' : Config σ κ} {l : Option ι}

/-- An invariant of the past labels and the shared state, with one of each call, survives every
step if it survives the start of a call and one operation: the calls that it leaves keep theirs, and
so does a call that stands by. -/
theorem Step.history {I : List (Option ι) → σ → Prop} {J : List (Option ι) → σ → κ → Prop}
    (hstart : ∀ {past s k}, start k → I past s → I (past ++ [none]) s ∧ J (past ++ [none]) s k)
    (hwait : ∀ {past s k}, J past s k → J (past ++ [none]) s k)
    (hop : ∀ {past s k l s' ks'}, op s k l s' ks' → I past s → J past s k →
      I (past ++ [some l]) s' ∧ ∀ k' ∈ ks', J (past ++ [some l]) s' k')
    (hframe : ∀ {past s k l s' ks' k'}, op s k l s' ks' → J past s k' →
      J (past ++ [some l]) s' k')
    {past : List (Option ι)} (h : Step start op c l c')
    (hc : I past c.shared ∧ ∀ k ∈ c.calls, J past c.shared k) :
    I (past ++ [l]) c'.shared ∧ ∀ k ∈ c'.calls, J (past ++ [l]) c'.shared k := by
  obtain ⟨hI, hJ⟩ := hc
  cases h with
  | start hk =>
    obtain ⟨hI', hk'⟩ := hstart hk hI
    refine ⟨hI', fun k hmem => ?_⟩
    obtain rfl | hmem := Multiset.mem_cons.1 hmem
    · exact hk'
    · exact hwait (hJ k hmem)
  | call hk =>
    obtain ⟨hI', hks'⟩ := hop hk hI (hJ _ (Multiset.mem_cons_self _ _))
    refine ⟨hI', fun k hmem => ?_⟩
    obtain hmem | hmem := Multiset.mem_add.1 hmem
    · exact hks' k hmem
    · exact hframe hk (hJ k (Multiset.mem_cons_of_mem hmem))

/-- An invariant of the shared state, with one of each call beside it. -/
theorem Step.invariant {I : σ → Prop} {J : σ → κ → Prop}
    (hstart : ∀ {s k}, start k → I s → J s k)
    (hop : ∀ {s k l s' ks'}, op s k l s' ks' → I s → J s k → I s' ∧ ∀ k' ∈ ks', J s' k')
    (hframe : ∀ {s k l s' ks' k'}, op s k l s' ks' → I s → J s k' → J s' k')
    (h : Step start op c l c') (hc : I c.shared ∧ ∀ k ∈ c.calls, J c.shared k) :
    I c'.shared ∧ ∀ k ∈ c'.calls, J c'.shared k := by
  obtain ⟨hI, hJ⟩ := hc
  cases h with
  | start hk =>
    refine ⟨hI, fun k hmem => ?_⟩
    obtain rfl | hmem := Multiset.mem_cons.1 hmem
    · exact hstart hk hI
    · exact hJ k hmem
  | call hk =>
    obtain ⟨hI', hks'⟩ := hop hk hI (hJ _ (Multiset.mem_cons_self _ _))
    refine ⟨hI', fun k hmem => ?_⟩
    obtain hmem | hmem := Multiset.mem_add.1 hmem
    · exact hks' k hmem
    · exact hframe hk hI (hJ k (Multiset.mem_cons_of_mem hmem))

/-- What each operation keeps of the shared state and of the calls, every step keeps. -/
theorem Step.preserves {I : σ → Prop} {J : κ → Prop} (hstart : ∀ {k}, start k → J k)
    (hop : ∀ {s k l s' ks'}, op s k l s' ks' → I s → J k → I s' ∧ ∀ k' ∈ ks', J k')
    (h : Step start op c l c') (hc : I c.shared ∧ ∀ k ∈ c.calls, J k) :
    I c'.shared ∧ ∀ k ∈ c'.calls, J k := by
  obtain ⟨hI, hJ⟩ := hc
  cases h with
  | start hk => exact ⟨hI, Multiset.forall_mem_cons.2 ⟨hstart hk, hJ⟩⟩
  | call hk =>
    obtain ⟨hk', hks⟩ := Multiset.forall_mem_cons.1 hJ
    obtain ⟨hI', hks'⟩ := hop hk hI hk'
    refine ⟨hI', fun k hmem => ?_⟩
    exact (Multiset.mem_add.1 hmem).elim (hks' k) (hks k)

/-- A step from a shared state with a property is one of the operations from such states. -/
theorem Step.restrict {P : σ → Prop} (h : Step start op c l c') (hP : P c.shared) :
    Step start (fun s k l s' ks' => P s ∧ op s k l s' ks') c l c' := by
  cases h with
  | start hk => exact .start hk
  | call hk => exact .call ⟨hP, hk⟩

/-- An operation, read off a labelled step: the call that takes it and the other calls. -/
theorem Step.exists_op {l : ι} (h : Step start op c (some l) c') :
    ∃ k ks' ks, c.calls = k ::ₘ ks ∧ op c.shared k l c'.shared ks' ∧ c'.calls = ks' + ks := by
  cases h with
  | call hk => exact ⟨_, _, _, rfl, hk, rfl⟩

/-- An operation of the call that the last step has left. -/
theorem Step.next {s s' : σ} {k : κ} {l : ι} {ks' ks : Multiset κ} (h : op s k l s' ks') :
    Step start op ⟨s, {k} + ks⟩ (some l) ⟨s', ks' + ks⟩ := by
  rw [Multiset.singleton_add]
  exact .call h

theorem Step.beside {s s' : σ} {k : κ} {l : ι} {ks' cs : Multiset κ} (ks : Multiset κ)
    (h : op s k l s' ks') (hcs : cs = k ::ₘ ks) :
    Step start op ⟨s, cs⟩ (some l) ⟨s', ks' + ks⟩ := by
  subst hcs
  exact .call h

/-- An operation of the only call in progress. -/
theorem Step.alone {s s' : σ} {k : κ} {l : ι} {ks' : Multiset κ} (h : op s k l s' ks') :
    Step start op ⟨s, {k}⟩ (some l) ⟨s', ks'⟩ := by
  have hstep : Step start op ⟨s, k ::ₘ 0⟩ (some l) ⟨s', ks' + 0⟩ := .call h
  rwa [Multiset.add_zero] at hstep

end Steps

/-! ## What the calls hold -/

section Weigh

variable {M : Type w} [AddCommMonoid M] (f : κ → M)

/-- What the calls hold together. -/
def weigh (ks : Multiset κ) : M := (ks.map f).sum

@[simp] theorem weigh_zero : weigh f (0 : Multiset κ) = 0 := by simp [weigh]

@[simp] theorem weigh_cons (k : κ) (ks : Multiset κ) : weigh f (k ::ₘ ks) = f k + weigh f ks := by
  simp [weigh]

@[simp] theorem weigh_singleton (k : κ) : weigh f {k} = f k := by simp [weigh]

@[simp] theorem weigh_add (ks ks' : Multiset κ) : weigh f (ks + ks') = weigh f ks + weigh f ks' := by
  rw [weigh, Multiset.map_add, Multiset.sum_add]
  rfl

theorem weigh_eq_zero {ks : Multiset κ} (h : ∀ k ∈ ks, f k = 0) : weigh f ks = 0 := by
  refine Multiset.sum_eq_zero fun m hm => ?_
  obtain ⟨k, hk, rfl⟩ := Multiset.mem_map.1 hm
  exact h k hk

/-- Each call holds a part of the whole. -/
theorem le_weigh {f : κ → Nat} {k : κ} {ks : Multiset κ} (h : k ∈ ks) : f k ≤ weigh f ks := by
  obtain ⟨rest, rfl⟩ := Multiset.exists_cons_of_mem h
  rw [weigh_cons]
  exact Nat.le_add_right _ _

end Weigh

end Pool
