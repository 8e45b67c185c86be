import Mathlib.Logic.Function.Basic
import SheriMl.ExecPolicy.Approval
import SheriMl.Lib.Lines
import SheriMl.Lib.Transition

/-!
# Amending the exec policy

`append_amendment_and_update` of `core/src/exec_policy.rs` and the file append of
`execpolicy/src/amend.rs`, for any number of calls in flight on one manager. A
call appends its rule to the rules file, loads the manager's policy, and stores
a copy with the rule added. Other calls run between any two of these steps; the
append alone holds a lock, on the file.

`noAmendmentLost_of_fresh`: as long as every call stores over the policy it
loaded, no approved rule is lost. `amendmentLost_of_stale` is the other order.
The rules file keeps every rule appended, in any order (`filesKeep_of_run`).
-/

namespace SheriMl.ExecPolicy

/-! ## The rules file -/

inductive AmendError where
  | emptyPrefix
  | missingParent (path : Str)
  | createPolicyDir (dir : Str)
  | openPolicyFile (path : Str)
  | writePolicyFile (path : Str)
  | lockPolicyFile (path : Str)
  | seekPolicyFile (path : Str)
  | readPolicyFile (path : Str)

inductive ExecPolicyUpdateError where
  | appendRule (path : Str) (source : AmendError)
  | joinBlockingTask
  | addRule (source : PolicyError)

/-- `codex_home.join("rules").join("default.rules")`. -/
def defaultPolicyPath (codexHome : Str) : Str :=
  Path.join (Path.join codexHome "rules") "default.rules"

/-- A lower-case hexadecimal digit. -/
def hexDigit (n : Nat) : Char := ("0123456789abcdef".toList).getD n '0'

/-- The escapes of `serde_json`. -/
def jsonEscape (c : Char) : Str :=
  if c = '"' then ['\\', '"']
  else if c = '\\' then ['\\', '\\']
  else if c = '\x08' then ['\\', 'b']
  else if c = '\x0c' then ['\\', 'f']
  else if c = '\n' then ['\\', 'n']
  else if c = '\r' then ['\\', 'r']
  else if c = '\t' then ['\\', 't']
  else if c.toNat < 0x20 then ['\\', 'u', '0', '0', hexDigit (c.toNat / 16), hexDigit (c.toNat % 16)]
  else [c]

/-- `serde_json::to_string` of a string. -/
def jsonString (s : Str) : Str := ['"'] ++ s.flatMap jsonEscape ++ ['"']

/-- The line `blocking_append_allow_prefix_rule` appends. -/
def allowRuleLine (command : List Str) : Str :=
  ("prefix_rule(pattern=[" : Str) ++ Str.join ", " (command.map jsonString) ++
    ("], decision=\"allow\")" : Str)

/-- What `append_locked_line` writes to the end of the file. -/
def appendedText (contents line : Str) : Str :=
  if line ∈ Str.lines contents then []
  else
    (if !contents.isEmpty && !Str.endsWith contents ['\n'] then ['\n'] else []) ++ line ++ ['\n']

theorem notMem_jsonEscape (c : Char) : '\n' ∉ jsonEscape c := by
  have hdigit : ∀ n < 16, '\n' ≠ hexDigit n := by decide
  unfold jsonEscape
  split_ifs with _ _ _ _ hnewline _ _ hsmall
  all_goals try decide
  · have hhigh := hdigit (c.toNat / 16) (by omega)
    have hlow := hdigit (c.toNat % 16) (by omega)
    simp [hhigh, hlow]
  · exact fun h => hnewline (List.mem_singleton.1 h).symm

theorem notMem_allowRuleLine (command : List Str) : '\n' ∉ allowRuleLine command := by
  have hstrings : ∀ part ∈ command.map jsonString, '\n' ∉ part := by
    intro part hpart
    obtain ⟨s, -, rfl⟩ := List.mem_map.1 hpart
    simp [jsonString, notMem_jsonEscape]
  intro hmem
  unfold allowRuleLine at hmem
  rcases List.mem_append.1 hmem with h | h
  · rcases List.mem_append.1 h with h | h
    · exact absurd h (by decide +kernel)
    · exact Str.notMem_join (by decide +kernel) hstrings h
  · exact absurd h (by decide +kernel)

theorem chomp_allowRuleLine (command : List Str) :
    Str.chomp (allowRuleLine command) = allowRuleLine command := by
  refine Str.chomp_of_not_endsWith (Bool.eq_false_iff.2 fun h => ?_)
  obtain ⟨r, hr⟩ := Str.endsWith_iff.1 h
  have hlast := congrArg List.getLast? hr
  have hright : ("], decision=\"allow\")" : Str) ≠ [] := by decide +kernel
  unfold allowRuleLine at hlast
  rw [List.getLast?_append_of_ne_nil _ hright,
    List.getLast?_append_of_ne_nil _ (show ("\r" : Str) ≠ [] by decide)] at hlast
  exact absurd hlast (by decide +kernel)

/-- What an append writes, in part or as a whole, leaves the lines of other rules. -/
theorem mem_lines_appended {command : List Str} {contents line t : Str}
    (h : allowRuleLine command ∈ Str.lines contents) (ht : t <+: appendedText contents line) :
    allowRuleLine command ∈ Str.lines (contents ++ t) := by
  refine Str.mem_lines_append h (chomp_allowRuleLine command) fun hne => ?_
  unfold appendedText at ht
  split at ht
  · exact absurd (List.prefix_nil.1 ht) hne
  · split at ht
    · obtain ⟨c, rest, rfl⟩ := List.exists_cons_of_ne_nil hne
      exact .inr (congrArg some (List.cons_prefix_cons.1 ht).1)
    next hends =>
      refine .inl ?_
      cases contents with
      | nil => cases h
      | cons => simpa using hends

theorem mem_lines_append_line (contents : Str) (command : List Str) :
    allowRuleLine command ∈
      Str.lines (contents ++ appendedText contents (allowRuleLine command)) := by
  have hline : allowRuleLine command ∈ Str.lines (allowRuleLine command ++ ['\n']) := by
    rw [Str.lines_append_newline, Str.split,
      List.splitOn_eq_singleton (notMem_allowRuleLine command)]
    exact List.mem_append_left _ (List.mem_singleton.2 (chomp_allowRuleLine command).symm)
  have hafter (r : Str) : allowRuleLine command ∈
      Str.lines (r ++ '\n' :: (allowRuleLine command ++ ['\n'])) := by
    rw [Str.lines_append_newline]
    exact List.mem_append_right _ hline
  unfold appendedText
  split
  · rwa [List.append_nil]
  · split
    · exact hafter contents
    next hends =>
      cases contents with
      | nil => exact hline
      | cons c rest =>
        obtain ⟨r, hr⟩ := Str.endsWith_iff.1 (show Str.endsWith (c :: rest) "\n" = true by
          simpa using hends)
        rw [hr, List.append_assoc]
        exact hafter r

/-! ## Calls in flight -/

/-- Where a call of `append_amendment_and_update` stands. -/
inductive Call where
  | idle
  | started (codexHome : Str) (amendment : ExecPolicyAmendment)
  | appended (amendment : ExecPolicyAmendment)
  | loaded (amendment : ExecPolicyAmendment) (current : Policy)
  | returnedOk (amendment : ExecPolicyAmendment)
  | returnedErr (error : ExecPolicyUpdateError)

/-- The amendment of a call that has got past its append. -/
def Call.amended : Call → Option ExecPolicyAmendment
  | .appended a | .loaded a _ | .returnedOk a => some a
  | .idle | .started _ _ | .returnedErr _ => none

/-- The manager's policy, the contents of the rules files, and the calls. -/
structure ExecPolicyManager where
  policy : Policy
  files : Str → Option Str
  calls : Nat → Call

/-- The steps of the calls. An append whose input or output fails may have written
the first `written` characters. -/
inductive Action where
  | start (call : Nat) (codexHome : Str) (amendment : ExecPolicyAmendment)
  | append (call : Nat)
  | appendFails (call : Nat) (error : ExecPolicyUpdateError) (written : Option Nat)
  | load (call : Nat)
  | store (call : Nat)

namespace ExecPolicyManager

def setCall (s : ExecPolicyManager) (call : Nat) (c : Call) : ExecPolicyManager :=
  { s with calls := Function.update s.calls call c }

def setFile (s : ExecPolicyManager) (path contents : Str) : ExecPolicyManager :=
  { s with files := Function.update s.files path (some contents) }

def setPolicy (s : ExecPolicyManager) (policy : Policy) : ExecPolicyManager :=
  { s with policy }

def contents (s : ExecPolicyManager) (path : Str) : Str := (s.files path).getD []

@[simp] theorem setCall_calls (s : ExecPolicyManager) (i : Nat) (c : Call) :
    (s.setCall i c).calls = Function.update s.calls i c := rfl

/-- `blocking_append_allow_prefix_rule`, when reading and writing succeed. -/
def append (s : ExecPolicyManager) (i : Nat) (codexHome : Str) (a : ExecPolicyAmendment) :
    ExecPolicyManager :=
  let path := defaultPolicyPath codexHome
  if a.command.isEmpty then s.setCall i (.returnedErr (.appendRule path .emptyPrefix))
  else
    (s.setFile path (s.contents path ++ appendedText (s.contents path) (allowRuleLine a.command))
      ).setCall i (.appended a)

/-- The append when it fails: perhaps part of the text is in the file. -/
def appendFails (s : ExecPolicyManager) (i : Nat) (codexHome : Str) (a : ExecPolicyAmendment)
    (error : ExecPolicyUpdateError) (written : Option Nat) : ExecPolicyManager :=
  let path := defaultPolicyPath codexHome
  (match written with
    | none => s
    | some n =>
      s.setFile path
        (s.contents path ++ (appendedText (s.contents path) (allowRuleLine a.command)).take n)
    ).setCall i (.returnedErr error)

/-- `add_prefix_rule` on the copy, then the store. -/
def store (s : ExecPolicyManager) (i : Nat) (a : ExecPolicyAmendment) (current : Policy) :
    ExecPolicyManager :=
  match current.addPrefixRule a.command .allow with
  | .ok updatedPolicy => (s.setPolicy updatedPolicy).setCall i (.returnedOk a)
  | .error e => s.setCall i (.returnedErr (.addRule e))

/-- One step of one call; `none` when the call is not at that step. -/
def step (s : ExecPolicyManager) : Action → Option ExecPolicyManager
  | .start i codexHome a =>
    match s.calls i with
    | .idle => some (s.setCall i (.started codexHome a))
    | _ => none
  | .append i =>
    match s.calls i with
    | .started codexHome a => some (s.append i codexHome a)
    | _ => none
  | .appendFails i error written =>
    match s.calls i with
    | .started codexHome a => some (s.appendFails i codexHome a error written)
    | _ => none
  | .load i =>
    match s.calls i with
    | .appended a => some (s.setCall i (.loaded a s.policy))
    | _ => none
  | .store i =>
    match s.calls i with
    | .loaded a current => some (s.store i a current)
    | _ => none

def Initial (s : ExecPolicyManager) : Prop := ∀ i, s.calls i = .idle

/-- The manager before any call. -/
def new (policy : Policy) : ExecPolicyManager := ⟨policy, fun _ => none, fun _ => .idle⟩

/-! ## Lost amendments -/

variable {s t : ExecPolicyManager} {act : Action} {acts : List Action}

/-- Every amendment whose call returned Ok has its rule in the manager's policy. -/
def NoAmendmentLost (s : ExecPolicyManager) : Prop :=
  ∀ i a, s.calls i = .returnedOk a → s.policy.AllowsPrefix a.command

/-- A step that is no store, or stores over the policy its call loaded. -/
def Fresh (s : ExecPolicyManager) : Action → Prop
  | .store i => ∀ a current, s.calls i = .loaded a current → current = s.policy
  | _ => True

/-- Interleavings of the calls' steps. -/
def Runs : ExecPolicyManager → List Action → ExecPolicyManager → Prop :=
  Transition.Run fun s act t => s.step act = some t

/-- Interleavings in which every store is fresh. -/
def FreshRuns : ExecPolicyManager → List Action → ExecPolicyManager → Prop :=
  Transition.Run fun s act t => s.step act = some t ∧ s.Fresh act

/-- The policy stays and no call returns Ok. -/
def Quiet (s t : ExecPolicyManager) : Prop :=
  t.policy = s.policy ∧ ∀ i a, t.calls i = .returnedOk a → s.calls i = .returnedOk a

theorem quiet_setCall {i : Nat} {c : Call} (hc : ∀ a, c ≠ .returnedOk a) :
    Quiet s (s.setCall i c) := by
  refine ⟨rfl, fun j a h => ?_⟩
  rw [setCall_calls, Function.update_apply] at h
  split at h
  · exact absurd h (hc a)
  · exact h

theorem quiet_append (i : Nat) (codexHome : Str) (a : ExecPolicyAmendment) :
    Quiet s (s.append i codexHome a) := by
  unfold append
  split
  · exact quiet_setCall (by simp)
  · exact quiet_setCall (by simp)

theorem quiet_appendFails (i : Nat) (codexHome : Str) (a : ExecPolicyAmendment)
    (error : ExecPolicyUpdateError) (written : Option Nat) :
    Quiet s (s.appendFails i codexHome a error written) := by
  cases written with
  | none => exact quiet_setCall (by simp)
  | some n => exact quiet_setCall (by simp)

theorem step_cases (h : s.step act = some t) :
    Quiet s t ∨ ∃ i a current updatedPolicy, act = .store i ∧ s.calls i = .loaded a current ∧
      current.addPrefixRule a.command .allow = .ok updatedPolicy ∧
      t = (s.setPolicy updatedPolicy).setCall i (.returnedOk a) := by
  cases act with
  | start i codexHome a =>
    simp only [step] at h
    split at h
    · cases h
      exact .inl (quiet_setCall (by simp))
    · cases h
  | append i =>
    simp only [step] at h
    split at h
    · cases h
      exact .inl (quiet_append ..)
    · cases h
  | appendFails i error written =>
    simp only [step] at h
    split at h
    · cases h
      exact .inl (quiet_appendFails ..)
    · cases h
  | load i =>
    simp only [step] at h
    split at h
    · cases h
      exact .inl (quiet_setCall (by simp))
    · cases h
  | store i =>
    simp only [step] at h
    split at h
    · next a current hcall =>
      cases h
      unfold store
      split
      · next updatedPolicy hadd =>
        exact .inr ⟨i, a, current, updatedPolicy, rfl, hcall, hadd, rfl⟩
      · exact .inl (quiet_setCall (by simp))
    · cases h

theorem NoAmendmentLost.step (hs : s.NoAmendmentLost) (h : s.step act = some t)
    (hfresh : s.Fresh act) : t.NoAmendmentLost := by
  rcases step_cases h with ⟨hpolicy, hcalls⟩ | ⟨i, a, current, updatedPolicy, rfl, hcall, hadd, rfl⟩
  · intro j b hb
    rw [hpolicy]
    exact hs j b (hcalls j b hb)
  · obtain rfl := hfresh a current hcall
    intro j b hb
    rw [setCall_calls, Function.update_apply] at hb
    split at hb
    · cases hb
      exact Policy.allowsPrefix_of_addPrefixRule hadd
    · exact (hs j b hb).addPrefixRule hadd

/-- Stores over the loaded policy lose no amendment, in any interleaving. -/
theorem noAmendmentLost_of_fresh (hinit : s.Initial) (h : FreshRuns s acts t) :
    t.NoAmendmentLost := by
  refine Transition.Run.invariant (fun hs hstep => hs.step hstep.1 hstep.2) h ?_
  intro i a hi
  rw [hinit i] at hi
  cases hi

/-- Two approvals in turn. -/
def inTurn : List Action :=
  [.start 0 "/h" ⟨["make"]⟩, .append 0, .load 0, .store 0,
    .start 1 "/h" ⟨["ls"]⟩, .append 1, .load 1, .store 1]

theorem noAmendmentLost_inTurn :
    ∃ t, FreshRuns (new .empty) inTurn t ∧ t.calls 1 = .returnedOk ⟨["ls"]⟩ ∧
      t.NoAmendmentLost := by
  have hrun : ∃ t, FreshRuns (new .empty) inTurn t ∧ t.calls 1 = .returnedOk ⟨["ls"]⟩ := by
    refine ⟨_, .cons ⟨rfl, trivial⟩ (.cons ⟨rfl, trivial⟩ (.cons ⟨rfl, trivial⟩ (.cons ⟨rfl, ?_⟩
      (.cons ⟨rfl, trivial⟩ (.cons ⟨rfl, trivial⟩ (.cons ⟨rfl, trivial⟩ (.cons ⟨rfl, ?_⟩
        (.nil _)))))))), rfl⟩
    · rintro a current ⟨⟩
      rfl
    · rintro a current ⟨⟩
      rfl
  obtain ⟨t, hrun, hcall⟩ := hrun
  exact ⟨t, hrun, hcall, noAmendmentLost_of_fresh (fun _ => rfl) hrun⟩

/-- Two approvals at once: both load the policy before either stores. -/
def bothLoadFirst : List Action :=
  [.start 0 "/h" ⟨["make"]⟩, .start 1 "/h" ⟨["ls"]⟩, .append 0, .append 1, .load 0, .load 1,
    .store 0, .store 1]

/-- Both calls return Ok, and the rule for `make` is gone. -/
theorem amendmentLost_of_stale :
    ∃ t, Runs (new .empty) bothLoadFirst t ∧ t.calls 0 = .returnedOk ⟨["make"]⟩ ∧
      t.calls 1 = .returnedOk ⟨["ls"]⟩ ∧ (∀ i, 2 ≤ i → t.calls i = .idle) ∧
      ¬ t.NoAmendmentLost := by
  refine ⟨_, .cons rfl (.cons rfl (.cons rfl (.cons rfl (.cons rfl (.cons rfl (.cons rfl
    (.cons rfl (.nil _)))))))), rfl, rfl, ?_, ?_⟩
  · intro i hi
    have h0 : i ≠ 0 := by omega
    have h1 : i ≠ 1 := by omega
    simp [ExecPolicyManager.store, append, Policy.addPrefixRule, new, setCall, setPolicy, setFile,
      h0, h1]
  · intro hkept
    -- the stored copy of the empty policy has rules for `ls` only
    obtain ⟨first, rest, hcommand, hmem⟩ := hkept 0 ⟨["make"]⟩ rfl
    cases hcommand
    have hnone : (Policy.empty.insert "ls" (Policy.prefixRule "ls" [] .allow)).rulesFor "make" =
        [] := by decide
    exact List.not_mem_nil (hnone ▸ hmem)

/-! ## The rules file keeps what was appended -/

/-- The line of the rule is in some rules file. -/
def Written (s : ExecPolicyManager) (a : ExecPolicyAmendment) : Prop :=
  ∃ path, allowRuleLine a.command ∈ Str.lines (s.contents path)

/-- The rule of every call that has got past its append is in a rules file. -/
def FilesKeep (s : ExecPolicyManager) : Prop := ∀ i a, (s.calls i).amended = some a → s.Written a

/-- At most the file at one path goes on. -/
def Extends (s t : ExecPolicyManager) : Prop :=
  ∀ path, ∃ line x, x <+: appendedText (s.contents path) line ∧
    t.contents path = s.contents path ++ x

theorem contents_setFile_self (s : ExecPolicyManager) (path contents : Str) :
    (s.setFile path contents).contents path = contents := by
  simp [ExecPolicyManager.contents, setFile]

theorem contents_setFile_of_ne {path path' : Str} (h : path' ≠ path) {contents : Str} :
    (s.setFile path contents).contents path' = s.contents path' := by
  simp [ExecPolicyManager.contents, setFile, h]

theorem extends_of_files (h : t.files = s.files) : Extends s t := fun path =>
  ⟨[], [], List.nil_prefix, by rw [contents, h, List.append_nil]; rfl⟩

theorem extends_setFile (path : Str) {line x : Str}
    (hx : x <+: appendedText (s.contents path) line) :
    Extends s (s.setFile path (s.contents path ++ x)) := by
  intro path'
  by_cases hpath : path' = path
  · subst hpath
    exact ⟨line, x, hx, contents_setFile_self ..⟩
  · exact ⟨[], [], List.nil_prefix, by rw [contents_setFile_of_ne hpath, List.append_nil]⟩

theorem FilesKeep.setCall (hs : s.FilesKeep) (hext : Extends s t) (hcalls : t.calls = s.calls)
    {i : Nat} {c : Call} (hc : ∀ a, c.amended = some a →
      (s.calls i).amended = some a ∨ t.Written a) : (t.setCall i c).FilesKeep := by
  have hkept {a : ExecPolicyAmendment} (h : s.Written a) : t.Written a := by
    obtain ⟨path, hline⟩ := h
    obtain ⟨line, x, hx, hcontents⟩ := hext path
    exact ⟨path, hcontents ▸ mem_lines_appended hline hx⟩
  intro j a hj
  rw [setCall_calls, hcalls, Function.update_apply] at hj
  split at hj
  · rcases hc a hj with h | h
    · exact hkept (hs i a h)
    · exact h
  · exact hkept (hs j a hj)

theorem FilesKeep.step (hs : s.FilesKeep) (h : s.step act = some t) : t.FilesKeep := by
  have hsame : Extends s s := extends_of_files rfl
  cases act with
  | start i codexHome a =>
    simp only [ExecPolicyManager.step] at h
    split at h
    · cases h
      exact hs.setCall hsame rfl nofun
    · cases h
  | append i =>
    simp only [ExecPolicyManager.step] at h
    split at h
    next codexHome a hcall =>
      cases h
      unfold append
      dsimp only
      split
      · exact hs.setCall hsame rfl nofun
      · refine hs.setCall (extends_setFile _ List.prefix_rfl) rfl fun a ha => .inr ?_
        obtain rfl := Option.some.inj ha
        refine ⟨defaultPolicyPath codexHome, ?_⟩
        rw [contents_setFile_self]
        exact mem_lines_append_line _ _
    · cases h
  | appendFails i error written =>
    simp only [ExecPolicyManager.step] at h
    split at h
    · cases h
      cases written with
      | none => exact hs.setCall hsame rfl nofun
      | some n => exact hs.setCall (extends_setFile _ (List.take_prefix _ _)) rfl nofun
    · cases h
  | load i =>
    simp only [ExecPolicyManager.step] at h
    split at h
    next a hcall =>
      cases h
      exact hs.setCall hsame rfl fun b hb => .inl (by rw [hcall]; exact hb)
    · cases h
  | store i =>
    simp only [ExecPolicyManager.step] at h
    split at h
    next a current hcall =>
      cases h
      unfold store
      split
      · exact hs.setCall (extends_of_files rfl) rfl fun b hb => .inl (by rw [hcall]; exact hb)
      · exact hs.setCall hsame rfl nofun
    · cases h

/-- Whatever the interleaving, and whatever appends fail half-way, the rules files keep the rule of
every call that has got past its append. -/
theorem filesKeep_of_run (hinit : s.Initial) (h : Runs s acts t) : t.FilesKeep := by
  refine Transition.Run.invariant (fun hs hstep => hs.step hstep) h fun i a hi => ?_
  rw [hinit i] at hi
  cases hi

/-- A second call's append breaks off after five characters. -/
theorem filesKeep_brokenOff :
    ∃ t, Runs (new .empty) [.start 0 "/h" ⟨["make"]⟩, .append 0, .start 1 "/h" ⟨["ls"]⟩,
        .appendFails 1 .joinBlockingTask (some 5)] t ∧
      t.calls 0 = .appended ⟨["make"]⟩ ∧ t.FilesKeep := by
  obtain ⟨t, hrun, hcall⟩ : ∃ t, Runs (new .empty) [.start 0 "/h" ⟨["make"]⟩, .append 0,
      .start 1 "/h" ⟨["ls"]⟩, .appendFails 1 .joinBlockingTask (some 5)] t ∧
      t.calls 0 = .appended ⟨["make"]⟩ :=
    ⟨_, .cons rfl (.cons rfl (.cons rfl (.cons rfl (.nil _)))), rfl⟩
  exact ⟨t, hrun, hcall, filesKeep_of_run (fun _ => rfl) hrun⟩

end ExecPolicyManager

end SheriMl.ExecPolicy
