import Mathlib.Data.Finset.Insert
import SheriMl.Lib.Pool

/-!
# The readiness flag

`ReadinessFlag` keeps its state in an atomic flag, a set of tokens behind a mutex, and a
watch channel for the waiters. Each atomic load, lock section and channel operation is
one step of a call (`CallStep`); any number of tasks call the operations in any order.

The channel is tokio's: `send` fails and stores nothing when there is no receiver, a new
receiver has seen the current version, and `changed` returns once the version is another
one than the receiver has seen. The mutex may time out, and `try_lock` may fail.
-/

namespace SheriMl.Readiness

open Pool Transition

/-- `Token(i32)`. -/
abbrev Token := Int32

structure ReadinessFlag where
  ready : Bool
  nextId : Int32
  tokens : Finset Token
  /-- The value in the watch channel, how often it was sent, and its receivers. -/
  value : Bool
  version : Nat
  receivers : Nat

namespace ReadinessFlag

/-- `ReadinessFlag::new`; the first receiver is dropped at once. -/
def new : ReadinessFlag := ⟨false, 1, ∅, false, 0, 0⟩

/-- The loop of `subscribe`: draw ids until one is non-zero and not in use. -/
inductive Draw (tokens : Finset Token) : Int32 → Token → Int32 → Prop
  | take {id : Int32} : id ≠ 0 → id ∉ tokens → Draw tokens id id (id + 1)
  | skip {id token next : Int32} : id = 0 ∨ id ∈ tokens → Draw tokens (id + 1) token next →
      Draw tokens id token next

def subscribe (f : ReadinessFlag) (token : Token) (next : Int32) : ReadinessFlag :=
  { f with tokens := insert token f.tokens, nextId := next }

/-- `ready.store(true)` and `set.clear()` under the lock. -/
def mark (f : ReadinessFlag) : ReadinessFlag := { f with ready := true, tokens := ∅ }

/-- `ready.swap(true)`. -/
def swapReady (f : ReadinessFlag) : ReadinessFlag := { f with ready := true }

/-- `tx.send(true)`. -/
def send (f : ReadinessFlag) : ReadinessFlag :=
  if f.receivers = 0 then f else { f with value := true, version := f.version + 1 }

/-- `tx.subscribe()`. -/
def addReceiver (f : ReadinessFlag) : ReadinessFlag := { f with receivers := f.receivers + 1 }

def dropReceiver (f : ReadinessFlag) : ReadinessFlag := { f with receivers := f.receivers - 1 }

end ReadinessFlag

/-- Who runs `is_ready`: its caller, or `wait_ready`. -/
inductive Caller
  | isReady
  | waitReady

/-- A call in progress, by what it does next. -/
inductive Call
  /-- `is_ready`: the first load. -/
  | loading (caller : Caller)
  | tryLocking (caller : Caller)
  /-- `is_ready` after it has swapped the flag: the broadcast. -/
  | announcing (caller : Caller)
  /-- `is_ready`: the last load. -/
  | reloading (caller : Caller)
  /-- `subscribe`: the first load. -/
  | subscribing
  /-- `subscribe`: the lock section. -/
  | inserting
  /-- `mark_ready`: the load. -/
  | marking (token : Token)
  /-- `mark_ready`: the lock section. -/
  | removing (token : Token)
  /-- `mark_ready` after its lock section: the broadcast. -/
  | broadcasting
  /-- `wait_ready` has seen `is_ready` answer false; it subscribes to the channel next. -/
  | waiting
  /-- The fast-path check of the receiver. -/
  | borrowing (seen : Nat)
  /-- Awaiting `changed()`. -/
  | parked (seen : Nat)
  /-- `changed()` has returned. -/
  | woken (seen : Nat)

inductive Event
  | issue (token : Token)
  /-- A broadcast; `delivered` tells whether there was a receiver. After its broadcast
  `mark_ready` returns true. -/
  | send (byMarkReady delivered : Bool)
  | other

open ReadinessFlag in
inductive CallStep : ReadinessFlag → Call → Event → ReadinessFlag → Multiset Call → Prop
  | loadTrue {f caller} : f.ready = true → CallStep f (.loading caller) .other f 0
  | loadFalse {f caller} : f.ready = false →
      CallStep f (.loading caller) .other f {.tryLocking caller}
  | tryLockFails {f caller} : CallStep f (.tryLocking caller) .other f {.reloading caller}
  | tryLockTokens {f caller} : f.tokens ≠ ∅ →
      CallStep f (.tryLocking caller) .other f {.reloading caller}
  | tryLockWasReady {f caller} : f.tokens = ∅ → f.ready = true →
      CallStep f (.tryLocking caller) .other f.swapReady 0
  | tryLockSwaps {f caller} : f.tokens = ∅ → f.ready = false →
      CallStep f (.tryLocking caller) .other f.swapReady {.announcing caller}
  | announce {f caller} :
      CallStep f (.announcing caller) (.send false (decide (f.receivers ≠ 0))) f.send 0
  | reloadTrue {f caller} : f.ready = true → CallStep f (.reloading caller) .other f 0
  | reloadFalse {f} : f.ready = false → CallStep f (.reloading .isReady) .other f 0
  | reloadFalseWait {f} : f.ready = false →
      CallStep f (.reloading .waitReady) .other f {.waiting}
  | subscribeReady {f} : f.ready = true → CallStep f .subscribing .other f 0
  | subscribeLoad {f} : f.ready = false → CallStep f .subscribing .other f {.inserting}
  | insertReady {f} : f.ready = true → CallStep f .inserting .other f 0
  | insert {f token next} : f.ready = false → Draw f.tokens f.nextId token next →
      CallStep f .inserting (.issue token) (f.subscribe token next) 0
  -- `TokenLockFailed`, or the task is cancelled
  | insertTimeout {f} : CallStep f .inserting .other f 0
  | markReadyAlready {f token} : f.ready = true → CallStep f (.marking token) .other f 0
  | markZero {f} : f.ready = false → CallStep f (.marking 0) .other f 0
  | markLoad {f token} : f.ready = false → token ≠ 0 →
      CallStep f (.marking token) .other f {.removing token}
  | removeUnknown {f token} : token ∉ f.tokens → CallStep f (.removing token) .other f 0
  | remove {f token} : token ∈ f.tokens →
      CallStep f (.removing token) .other f.mark {.broadcasting}
  | removeTimeout {f token} : CallStep f (.removing token) .other f 0
  | broadcast {f} :
      CallStep f .broadcasting (.send true (decide (f.receivers ≠ 0))) f.send 0
  | addReceiver {f} : CallStep f .waiting .other f.addReceiver {.borrowing f.version}
  | borrowTrue {f seen} : f.value = true →
      CallStep f (.borrowing seen) .other f.dropReceiver 0
  | borrowFalse {f seen} : f.value = false → CallStep f (.borrowing seen) .other f {.parked seen}
  | changed {f seen} : f.version ≠ seen → CallStep f (.parked seen) .other f {.woken f.version}
  -- the task that waits is cancelled
  | abandon {f seen} : CallStep f (.parked seen) .other f.dropReceiver 0
  | wokenTrue {f seen} : f.value = true → CallStep f (.woken seen) .other f.dropReceiver 0
  | wokenFalse {f seen} : f.value = false → CallStep f (.woken seen) .other f {.parked seen}

inductive Start : Call → Prop
  | isReady : Start (.loading .isReady)
  | waitReady : Start (.loading .waitReady)
  | subscribe : Start .subscribing
  | markReady (token : Token) : Start (.marking token)

abbrev State := Config ReadinessFlag Call

def step : State → Option Event → State → Prop := Step Start CallStep

def init : State := ⟨.new, 0⟩

/-- The flag is ready, all that is left are waiters parked on the channel, and the channel
says false. -/
def LostWakeup (c : State) : Prop :=
  c.shared.ready = true ∧ c.shared.value = false ∧ c.calls ≠ 0 ∧
    ∀ k ∈ c.calls, ∃ seen, k = .parked seen

/-! ## What the calls contribute -/

namespace Call

def receiver : Call → Nat
  | .borrowing _ => 1
  | .parked _ => 1
  | .woken _ => 1
  | _ => 0

/-- Waiters between their last load of the flag and their subscription. -/
def unsubscribed : Call → Nat
  | .waiting => 1
  | _ => 0

/-- Calls that have set the flag and not yet told the channel. -/
def sender : Call → Nat
  | .announcing _ => 1
  | .broadcasting => 1
  | _ => 0

/-- Calls of `mark_ready` that are going to return true. -/
def marker : Call → Nat
  | .broadcasting => 1
  | _ => 0

end Call

/-- The broadcast after which `mark_ready` returns true. -/
def Event.isMarked : Option Event → Bool
  | some (.send true _) => true
  | _ => false

@[ext] structure Tally where
  receivers : Nat
  unsubscribed : Nat
  senders : Nat
  markers : Nat

instance : Add Tally :=
  ⟨fun a b => ⟨a.receivers + b.receivers, a.unsubscribed + b.unsubscribed,
    a.senders + b.senders, a.markers + b.markers⟩⟩

namespace Tally

variable (a b : Tally)

@[simp] theorem receivers_add : (a + b).receivers = a.receivers + b.receivers := rfl

@[simp] theorem unsubscribed_add : (a + b).unsubscribed = a.unsubscribed + b.unsubscribed := rfl

@[simp] theorem senders_add : (a + b).senders = a.senders + b.senders := rfl

@[simp] theorem markers_add : (a + b).markers = a.markers + b.markers := rfl

theorem nil_add : (⟨0, 0, 0, 0⟩ : Tally) + b = b := by
  ext <;> simp

end Tally

/-- What the calls contribute together. -/
def tally (calls : Multiset Call) : Tally :=
  ⟨weigh Call.receiver calls, weigh Call.unsubscribed calls, weigh Call.sender calls,
    weigh Call.marker calls⟩

/-- What one step does to the flag, and to the tally of the call that takes it. -/
inductive Effect (f : ReadinessFlag) : Tally → Event → ReadinessFlag → Tally → Prop
  | goOn (receivers : Nat) : Effect f ⟨receivers, 0, 0, 0⟩ .other f ⟨receivers, 0, 0, 0⟩
  | issue {token : Token} {next : Int32} : f.ready = false →
      Effect f ⟨0, 0, 0, 0⟩ (.issue token) (f.subscribe token next) ⟨0, 0, 0, 0⟩
  | setReady (markers : Nat) : f.ready = false → markers ≤ 1 →
      Effect f ⟨0, 0, 0, 0⟩ .other f.mark ⟨0, 0, 1, markers⟩
  | send (byMarkReady : Bool) :
      Effect f ⟨0, 0, 1, byMarkReady.toNat⟩ (.send byMarkReady (decide (f.receivers ≠ 0)))
        f.send ⟨0, 0, 0, 0⟩
  | startWait : f.ready = false → Effect f ⟨0, 0, 0, 0⟩ .other f ⟨0, 1, 0, 0⟩
  | addReceiver : Effect f ⟨0, 1, 0, 0⟩ .other f.addReceiver ⟨1, 0, 0, 0⟩
  | dropReceiver : Effect f ⟨1, 0, 0, 0⟩ .other f.dropReceiver ⟨0, 0, 0, 0⟩

/-- What holds in every run. -/
structure Consistent (f : ReadinessFlag) (t : Tally) : Prop where
  receivers : f.receivers = t.receivers
  quiet : f.ready = false → f.value = false ∧ t.senders = 0
  spent : f.ready = true → f.tokens = ∅
  once : t.senders ≤ 1

/-- Once the only broadcast has failed, nobody waits. -/
def Heard (f : ReadinessFlag) (t : Tally) : Prop :=
  f.ready = true → t.senders = 0 → f.value = false → t.unsubscribed = 0 ∧ t.receivers = 0

/-- No broadcast fails for want of receivers while a waiter is about to subscribe. -/
def Delivered (c : State) : Option Event → Prop
  | some (.send _ false) => (tally c.calls).unsubscribed = 0
  | _ => True

section Steps

variable {f f' : ReadinessFlag} {k : Call} {e : Event} {ks ks' : Multiset Call}
  {c c' : State} {l : Option Event} {past ls : List (Option Event)}

theorem tally_single (k : Call) :
    tally {k} = ⟨k.receiver, k.unsubscribed, k.sender, k.marker⟩ := by
  simp [tally]

theorem tally_add (ks' ks : Multiset Call) : tally (ks' + ks) = tally ks' + tally ks := by
  simp only [tally, weigh_add]
  rfl

theorem tally_cons (k : Call) (ks : Multiset Call) : tally (k ::ₘ ks) = tally {k} + tally ks := by
  rw [← Multiset.singleton_add, tally_add]

theorem tally_start (h : Start k) : tally (k ::ₘ ks) = tally ks := by
  rw [tally_cons]
  have hzero : tally {k} = ⟨0, 0, 0, 0⟩ := by cases h <;> rfl
  rw [hzero, Tally.nil_add]

theorem mark_eq_swapReady (h : f.tokens = ∅) : f.mark = f.swapReady := by
  unfold ReadinessFlag.mark ReadinessFlag.swapReady
  rw [← h]

theorem swapReady_eq_self (h : f.ready = true) : f.swapReady = f := by
  unfold ReadinessFlag.swapReady
  rw [← h]

theorem ready_send (f : ReadinessFlag) : f.send.ready = f.ready := by
  unfold ReadinessFlag.send
  split <;> rfl

theorem tokens_send (f : ReadinessFlag) : f.send.tokens = f.tokens := by
  unfold ReadinessFlag.send
  split <;> rfl

theorem receivers_send (f : ReadinessFlag) : f.send.receivers = f.receivers := by
  unfold ReadinessFlag.send
  split <;> rfl

theorem value_send (h : f.send.value = false) : f.receivers = 0 ∧ f.value = false := by
  unfold ReadinessFlag.send at h
  split at h
  · next hnone => exact ⟨hnone, h⟩
  · cases h

theorem CallStep.effect (h : CallStep f k e f' ks') (hspent : f.ready = true → f.tokens = ∅) :
    Effect f (tally {k}) e f' (tally ks') := by
  rw [tally_single]
  cases h with
  | loadTrue => exact .goOn 0
  | loadFalse => exact .goOn 0
  | tryLockFails => exact .goOn 0
  | tryLockTokens => exact .goOn 0
  | tryLockWasReady _ hready =>
    rw [swapReady_eq_self hready]
    exact .goOn 0
  | tryLockSwaps htokens hready =>
    rw [← mark_eq_swapReady htokens]
    exact .setReady 0 hready (Nat.zero_le _)
  | announce => exact .send false
  | reloadTrue => exact .goOn 0
  | reloadFalse => exact .goOn 0
  | reloadFalseWait hready => exact .startWait hready
  | subscribeReady => exact .goOn 0
  | subscribeLoad => exact .goOn 0
  | insertReady => exact .goOn 0
  | insert hready => exact .issue hready
  | insertTimeout => exact .goOn 0
  | markReadyAlready => exact .goOn 0
  | markZero => exact .goOn 0
  | markLoad => exact .goOn 0
  | removeUnknown => exact .goOn 0
  | remove hmem =>
    -- a token is in the set, so the flag is not set yet
    have hready : f.ready = false := by
      rw [Bool.eq_false_iff]
      intro hready
      rw [hspent hready] at hmem
      exact absurd hmem (Finset.notMem_empty _)
    exact .setReady 1 hready le_rfl
  | removeTimeout => exact .goOn 0
  | broadcast => exact .send true
  | addReceiver => exact .addReceiver
  | borrowTrue => exact .dropReceiver
  | borrowFalse => exact .goOn 1
  | changed => exact .goOn 1
  | abandon => exact .dropReceiver
  | wokenTrue => exact .dropReceiver
  | wokenFalse => exact .goOn 1

variable {t t' r : Tally}

theorem Effect.consistent (h : Effect f t e f' t') (hc : Consistent f (t + r)) :
    Consistent f' (t' + r) := by
  obtain ⟨hreceivers, hquiet, hspent, honce⟩ := hc
  cases h with
  | goOn => exact ⟨hreceivers, hquiet, hspent, honce⟩
  | issue hready =>
    refine ⟨hreceivers, hquiet, fun hready' => ?_, honce⟩
    cases hready.symm.trans hready'
  | setReady markers hready =>
    have hnone := (hquiet hready).2
    refine ⟨hreceivers, fun hready' => (by cases hready'), fun _ => rfl, ?_⟩
    simp only [Tally.senders_add] at hnone ⊢
    omega
  | send byMarkReady =>
    have hready : f.ready = true := by
      rw [← Bool.not_eq_false]
      intro hready
      have hnone := (hquiet hready).2
      simp only [Tally.senders_add] at hnone
      omega
    simp only [Tally.senders_add, Tally.receivers_add] at honce hreceivers
    refine ⟨?_, fun hready' => ?_, fun _ => ?_, ?_⟩
    · rw [receivers_send, hreceivers, Tally.receivers_add]
    · rw [ready_send, hready] at hready'
      cases hready'
    · rw [tokens_send, hspent hready]
    · simp only [Tally.senders_add]
      omega
  | startWait => exact ⟨hreceivers, hquiet, hspent, honce⟩
  | addReceiver =>
    refine ⟨?_, hquiet, hspent, honce⟩
    simp only [Tally.receivers_add, ReadinessFlag.addReceiver] at hreceivers ⊢
    omega
  | dropReceiver =>
    refine ⟨?_, hquiet, hspent, honce⟩
    simp only [Tally.receivers_add, ReadinessFlag.dropReceiver] at hreceivers ⊢
    omega

theorem Effect.heard (h : Effect f t e f' t') (hc : Consistent f (t + r)) (hh : Heard f (t + r))
    (hdelivered : e = .send true false ∨ e = .send false false → (t + r).unsubscribed = 0) :
    Heard f' (t' + r) := by
  intro hready hsenders hvalue
  cases h with
  | goOn => exact hh hready hsenders hvalue
  | issue hready' => cases hready'.symm.trans hready
  | setReady => simp at hsenders
  | send byMarkReady =>
    -- it has failed, so no waiter holds a receiver
    obtain ⟨hnone, -⟩ := value_send hvalue
    have hreceivers := hc.receivers
    have hunsubscribed := hdelivered (by cases byMarkReady <;> simp [hnone])
    simp only [Tally.receivers_add, Tally.unsubscribed_add] at hreceivers hunsubscribed ⊢
    omega
  | startWait hready' => cases hready'.symm.trans hready
  | addReceiver =>
    have := (hh hready hsenders hvalue).1
    simp at this
  | dropReceiver =>
    have := (hh hready hsenders hvalue).2
    simp at this

/-- The calls of `mark_ready` that have returned true, or are going to. -/
def Marked (past : List (Option Event)) (f : ReadinessFlag) (t : Tally) : Prop :=
  past.countP Event.isMarked + t.markers ≤ if f.ready then 1 else 0

theorem Effect.marked (h : Effect f t e f' t') (hm : Marked past f (t + r)) :
    Marked (past ++ [some e]) f' (t' + r) := by
  unfold Marked at *
  rw [List.countP_append, List.countP_singleton]
  cases h with
  | setReady markers hready hmarkers =>
    simp only [Tally.markers_add, hready, ReadinessFlag.mark, Event.isMarked, Bool.false_eq_true,
      if_false, if_true] at hm ⊢
    omega
  | send byMarkReady =>
    simp only [ready_send, Tally.markers_add] at hm ⊢
    cases byMarkReady with
    | false =>
      simp only [Event.isMarked, Bool.toNat_false, Bool.false_eq_true, if_false] at hm ⊢
      omega
    | true =>
      simp only [Event.isMarked, Bool.toNat_true, if_true] at hm ⊢
      omega
  | _ => exact hm

/-! ## Runs -/

theorem Consistent.step (h : Readiness.step c l c') (hc : Consistent c.shared (tally c.calls)) :
    Consistent c'.shared (tally c'.calls) := by
  cases h with
  | start hk => rwa [tally_start hk]
  | call hop =>
    rw [tally_cons] at hc
    rw [tally_add]
    exact (hop.effect hc.spent).consistent hc

theorem Marked.step (h : Readiness.step c l c') (hc : Consistent c.shared (tally c.calls))
    (hm : Marked past c.shared (tally c.calls)) :
    Marked (past ++ [l]) c'.shared (tally c'.calls) := by
  cases h with
  | start hk =>
    rw [tally_start hk, Marked, List.countP_append]
    exact hm
  | call hop =>
    rw [tally_cons] at hm
    rw [tally_add]
    exact (hop.effect hc.spent).marked hm

theorem Heard.step (h : Readiness.step c l c') (hd : Delivered c l)
    (hc : Consistent c.shared (tally c.calls)) (hh : Heard c.shared (tally c.calls)) :
    Heard c'.shared (tally c'.calls) := by
  cases h with
  | start hk => rwa [tally_start hk]
  | call hop =>
    have heff := hop.effect hc.spent
    rw [tally_cons] at hc hh
    rw [tally_add]
    refine heff.heard hc hh fun he => ?_
    rw [← tally_cons]
    rcases he with rfl | rfl <;> exact hd

theorem consistent_init : Consistent init.shared (tally init.calls) :=
  ⟨rfl, fun _ => ⟨rfl, rfl⟩, fun h => (by cases h), Nat.zero_le _⟩

theorem marked_init : Marked [] init.shared (tally init.calls) := by
  simp [Marked, init, tally]

/-- Readiness is never undone. -/
theorem ready_mono (h : Readiness.step c l c') (hready : c.shared.ready = true) :
    c'.shared.ready = true := by
  cases h with
  | start => exact hready
  | call hop =>
    cases hop with
    | announce | broadcast => exact (ready_send _).trans hready
    | tryLockWasReady => rfl
    | tryLockSwaps => rfl
    | remove => rfl
    | _ => exact hready

theorem not_issue_of_ready {token : Token} (h : Readiness.step c (some (.issue token)) c') :
    c.shared.ready = false := by
  obtain ⟨k, ks', ks, -, hop, -⟩ := h.exists_op
  generalize c'.shared = f' at hop
  cases hop with
  | insert hready => exact hready

/-- Parked waiters on a silent channel are waiters the broadcast has not reached. -/
theorem not_lostWakeup (hh : Heard c.shared (tally c.calls)) : ¬ LostWakeup c := by
  rintro ⟨hready, hvalue, hne, hparked⟩
  have hsenders : (tally c.calls).senders = 0 := by
    refine weigh_eq_zero _ fun k hk => ?_
    obtain ⟨seen, rfl⟩ := hparked k hk
    rfl
  obtain ⟨k, hk⟩ := Multiset.exists_mem_of_ne_zero hne
  obtain ⟨seen, rfl⟩ := hparked k hk
  have hle : Call.receiver (.parked seen) ≤ (tally c.calls).receivers := le_weigh hk
  rw [(hh hready hsenders hvalue).2] at hle
  exact absurd hle (by simp [Call.receiver])

/-- The number of calls of `mark_ready` that return true, in every run. -/
theorem countP_isMarked_le_one (h : Run Readiness.step init ls c) :
    ls.countP Event.isMarked ≤ 1 := by
  have hmarked := h.history
    (I := fun past c => Consistent c.shared (tally c.calls) ∧
      Marked past c.shared (tally c.calls))
    (fun hI hstep => ⟨hI.1.step hstep, hI.2.step hstep hI.1⟩)
    [] ⟨consistent_init, marked_init⟩
  have hle := hmarked.2
  unfold Marked at hle
  rw [List.nil_append] at hle
  split at hle <;> omega

end Steps

/-- A step whose broadcast, if it is one, misses no waiter. -/
def deliveredStep (c : State) (l : Option Event) (c' : State) : Prop :=
  step c l c' ∧ Delivered c l

/-- In every run in which no broadcast fails while a waiter is about to subscribe, no waiter
is left parked on a flag that is ready; at most one call of `mark_ready` returns true,
readiness is never undone, and no token is issued after it. -/
theorem no_lost_wakeup {ls : List (Option Event)} {c : State} (h : Run deliveredStep init ls c) :
    ¬ LostWakeup c ∧ ls.countP Event.isMarked ≤ 1 ∧
      ∀ l c', step c l c' → c.shared.ready = true →
        c'.shared.ready = true ∧ ∀ token, l ≠ some (.issue token) := by
  have hI := h.invariant
    (I := fun c => Consistent c.shared (tally c.calls) ∧ Heard c.shared (tally c.calls))
    (fun hI hstep => ⟨hI.1.step hstep.1, hI.2.step hstep.1 hstep.2 hI.1⟩)
    ⟨consistent_init, fun hready => (by cases hready)⟩
  refine ⟨not_lostWakeup hI.2, countP_isMarked_le_one (h.mono fun hstep => hstep.1), ?_⟩
  intro l c' hstep hready
  refine ⟨ready_mono hstep hready, fun token hl => ?_⟩
  subst hl
  rw [not_issue_of_ready hstep] at hready
  cases hready

theorem run_subscribe : Run deliveredStep init [none, some .other, some (.issue 1)]
    ⟨⟨false, 2, {1}, false, 0, 0⟩, 0⟩ :=
  .cons ⟨.start .subscribe, trivial⟩ (.cons ⟨.alone (.subscribeLoad rfl), trivial⟩
    (.single ⟨.alone (.insert rfl (.take (by decide) (by decide))), trivial⟩))

/-- The token is used while nobody waits. -/
theorem no_lost_wakeup_of_marked :
    ∃ (ls : List (Option Event)) (c : State), Run deliveredStep init ls c ∧
      c.shared.ready = true ∧ ¬ LostWakeup c ∧ ls.countP Event.isMarked ≤ 1 := by
  have hmark : Run deliveredStep ⟨⟨false, 2, {1}, false, 0, 0⟩, 0⟩
      [none, some .other, some .other, some (.send true false)]
      ⟨⟨true, 2, ∅, false, 0, 0⟩, 0⟩ :=
    .cons ⟨.start (.markReady 1), trivial⟩ (.cons ⟨.alone (.markLoad rfl (by decide)), trivial⟩
      (.cons ⟨.alone (.remove (by decide)), trivial⟩ (.single ⟨.alone .broadcast, rfl⟩)))
  have hrun := run_subscribe.append hmark
  have h := no_lost_wakeup hrun
  exact ⟨_, _, hrun, rfl, h.1, h.2.1⟩

/-- The broadcast of `mark_ready` falls between a waiter's last load of the flag and its
subscription: the waiter parks for good. -/
theorem wakeup_lost : ¬ ∀ (ls : List (Option Event)) (c : State),
    Run step init ls c → ¬ LostWakeup c := by
  intro hall
  have hwait : Run step ⟨⟨false, 2, {1}, false, 0, 0⟩, 0⟩
      [none, some .other, some .other, some .other]
      ⟨⟨false, 2, {1}, false, 0, 0⟩, {.waiting}⟩ :=
    .cons (.start .waitReady) (.cons (.alone (.loadFalse rfl))
      (.cons (.alone (.tryLockTokens (by decide))) (.single (.alone (.reloadFalseWait rfl)))))
  have hmark : Run step ⟨⟨false, 2, {1}, false, 0, 0⟩, {.waiting}⟩
      [none, some .other, some .other, some (.send true false)]
      ⟨⟨true, 2, ∅, false, 0, 0⟩, 0 + {.waiting}⟩ :=
    .cons (.start (.markReady 1)) (.cons (.call (.markLoad rfl (by decide)))
      (.cons (.next (.remove (by decide))) (.single (.next .broadcast))))
  have hpark : Run step ⟨⟨true, 2, ∅, false, 0, 0⟩, {.waiting}⟩ [some .other, some .other]
      ⟨⟨true, 2, ∅, false, 0, 1⟩, {.parked 0}⟩ :=
    .cons (.alone .addReceiver) (.single (.alone (.borrowFalse rfl)))
  rw [zero_add] at hmark
  have hrun := (run_subscribe.mono fun hstep => hstep.1).append
    (hwait.append (hmark.append hpark))
  refine hall _ _ hrun ⟨rfl, rfl, Multiset.singleton_ne_zero _, fun k hk => ?_⟩
  exact ⟨0, Multiset.mem_singleton.1 hk⟩

end SheriMl.Readiness
