import Mathlib.Data.List.Nodup
import SheriMl.Lib.Lexical

/-!
# Escalated commands

One intercepted `execve`: `run` of `exec-server/src/posix/escalate_client.rs` and
`handle_escalate_session_with_policy` of `escalate_server.rs`. `faithful_iff`: when the file on
which the policy decides is the one that `execve` would run, and when the command that runs is the
one that was intercepted.
-/

namespace SheriMl.ExecServer

open LinkTree

/-- A directory, as `getcwd` names it. -/
structure Dir where
  names : Loc
  isName : ∀ name ∈ names, Path.IsName name

def Dir.path (d : Dir) : Str := pathOf d.names

/-- How many links are followed on a path. -/
def maxLinks : Nat := 40

abbrev Environ := Str → Option Str

inductive EscalateAction where
  | run
  | escalate
  | deny (reason : Option Str)

structure EscalateRequest where
  file : Str
  argv : List Str
  workdir : Str
  env : Environ

/-- `EscalationPolicy::determine_action`. -/
abbrev EscalationPolicy := Str → List Str → Str → Except Str EscalateAction

/-- What is passed to the kernel, in the directory and with the descriptors of the process. -/
structure Exec (D : Type) where
  file : Str
  argv : List Str
  workdir : Str
  env : Environ
  fds : Nat → Option D

variable {D : Type}

/-- An intercepted `execve`, with what the two processes have at hand. -/
structure Session (D : Type) where
  file : Str
  argv : List Str
  client : Dir
  env : Environ
  fds : Nat → Option D
  /-- the numbers of the descriptors that `run` sends -/
  sent : List Nat
  sent_nodup : sent.Nodup
  sent_open : ∀ n ∈ sent, (fds n).isSome = true
  server : Dir
  serverEnv : Environ
  serverFds : Nat → Option D
  /-- the numbers that they have in the server, whose standard descriptors are open -/
  received : List Nat
  received_nodup : received.Nodup
  received_length : received.length = sent.length
  received_new : ∀ n ∈ received, 3 ≤ n

/-! ## The client -/

def protocolEnvVars : List Str :=
  ["CODEX_ESCALATE_SOCKET".toList, "EXEC_WRAPPER".toList, "BASH_EXEC_WRAPPER".toList]

def sentEnv (env : Environ) : Environ := fun name =>
  if name ∈ protocolEnvVars then none else env name

def Session.request (s : Session D) : EscalateRequest :=
  ⟨s.file, s.argv, s.client.path, sentEnv s.env⟩

/-- The `execv` of the client, which is the intercepted call. -/
def Session.execv (s : Session D) : Exec D := ⟨s.file, s.argv, s.client.path, s.env, s.fds⟩

/-! ## The server -/

section Server

variable (absolutize : Dir → Str → Str)

def determine (policy : EscalationPolicy) (server : Dir) (request : EscalateRequest) :
    Except Str EscalateAction :=
  policy (absolutize server request.file) request.argv (absolutize server request.workdir)

/-- A closed descriptor is not duplicated. -/
def dup2 (fds : Nat → Option D) (src dst : Nat) : Nat → Option D :=
  if (fds src).isSome then Function.update fds dst (fds src) else fds

/-- The `pre_exec` of the command. -/
def preExec (dsts srcs : List Nat) (fds : Nat → Option D) : Nat → Option D :=
  (dsts.zip srcs).foldl (fun fds fd => dup2 fds fd.2 fd.1) fds

inductive Spawned (D : Type) where
  | error (message : Str)
  | panicked
  | spawned (exec : Exec D)

/-- What the server does when the descriptors have come: `fds` are their numbers, `childFds` the
descriptors of the process that it forks. -/
def superExec (server : Dir) (serverEnv : Environ) (childFds : Nat → Option D)
    (request : EscalateRequest) (msgFds fds : List Nat) : Spawned D :=
  if fds.length ≠ msgFds.length then
    .error ("mismatched number of fds in SuperExecMessage: ".toList ++
      Nat.toDigits 10 msgFds.length ++ " in the message, ".toList ++
      Nat.toDigits 10 fds.length ++ " from the control message".toList)
  else if msgFds.any (fun src => fds.any fun dst => dst = src) then
    .error "overlapping fds not yet supported in SuperExecMessage".toList
  else match request.argv with
    -- `&argv[1..]` is out of range
    | [] => .panicked
    | arg0 :: args => .spawned
      { file := absolutize server request.file
        argv := arg0 :: args
        workdir := absolutize server request.workdir
        env := fun name => (request.env name).or (serverEnv name)
        fds := preExec msgFds fds childFds }

end Server

/-- What comes of a session. -/
inductive Outcome (D : Type) where
  | nothing
  | client (exec : Exec D)
  | server (exec : Exec D)
  | panicked

def Spawned.outcome : Spawned D → Outcome D
  | .error _ => .nothing
  | .panicked => .panicked
  | .spawned exec => .server exec

namespace Session

variable (s : Session D) (absolutize : Dir → Str → Str) (policy : EscalationPolicy) (null : D)

/-- The descriptors after the fork: the standard ones are `/dev/null`. -/
def childFds : Nat → Option D := fun n =>
  if n < 3 then some null
  else match (s.received.zip s.sent).lookup n with
    | some m => s.fds m
    | none => s.serverFds n

/-- The answer that the client gets, unless the session fails. -/
def answer : Except Str EscalateAction := determine absolutize policy s.server s.request

def spawned : Spawned D :=
  superExec absolutize s.server s.serverEnv (s.childFds null) s.request s.sent s.received

def outcome : Outcome D :=
  match s.answer absolutize policy with
  | .error _ | .ok (.deny _) => .nothing
  | .ok .run => .client s.execv
  | .ok .escalate => (s.spawned absolutize null).outcome

/-! ## What the session is to do -/

/-- The path denotes the file that `execve` would run, whatever there is in the directories. -/
def SameFile (path : Str) : Prop :=
  ∀ t : LinkTree, t.node s.client.names = some .dir → t.node s.server.names = some .dir →
    lookup t maxLinks s.client.names path = lookup t maxLinks s.client.names s.file

structure Faithful : Prop where
  decided : s.SameFile (absolutize s.server s.file)
  noPanic : s.outcome absolutize policy null ≠ .panicked
  denied : ∀ reason, s.answer absolutize policy = .ok (.deny reason) →
    s.outcome absolutize policy null = .nothing
  ran : s.answer absolutize policy = .ok .run → ∃ exec,
    s.outcome absolutize policy null = .client exec ∧ s.SameFile exec.file ∧ exec.argv = s.argv ∧
      exec.workdir = s.client.path ∧ exec.env = s.env ∧ ∀ n ∈ s.sent, exec.fds n = s.fds n
  escalated : s.answer absolutize policy = .ok .escalate → ∃ exec,
    s.outcome absolutize policy null = .server exec ∧ s.SameFile exec.file ∧ exec.argv = s.argv ∧
      exec.workdir = s.client.path ∧ exec.env = sentEnv s.env ∧ ∀ n ∈ s.sent, exec.fds n = s.fds n

/-- What is a directory for sure. -/
def Known (loc : Loc) : Prop := loc <+: s.client.names ∨ loc <+: s.server.names

structure SamePath : Prop where
  file_ne_nil : s.file ≠ []
  lexical_eq : lexical s.client.names s.file = lexical s.server.names s.file
  certain : Certain s.Known (startOf s.client.names s.file) (bodyOf s.file)
  mustBeDir : LinkTree.mustBeDir s.file = true → s.Known (lexical s.server.names s.file)

structure Escalable : Prop where
  argv_ne_nil : s.argv ≠ []
  serverEnv : ∀ name, sentEnv s.env name = none → s.serverEnv name = none
  disjoint : ∀ n ∈ s.received, n ∉ s.sent

end Session

/-! ## Descriptors -/

section Descriptors

variable {dsts srcs : List Nat} {fds : Nat → Option D} {n dst src : Nat}

theorem dup2_of_ne (h : n ≠ dst) : dup2 fds src dst n = fds n := by
  rw [dup2]
  split
  · exact Function.update_of_ne h ..
  · rfl

theorem dup2_self (h : (fds src).isSome = true) : dup2 fds src dst dst = fds src := by
  rw [dup2, if_pos h]
  exact Function.update_self ..

theorem preExec_of_notMem (h : n ∉ dsts) : preExec dsts srcs fds n = fds n := by
  induction dsts generalizing srcs fds with
  | nil => rfl
  | cons dst dsts ih =>
    cases srcs with
    | nil => rfl
    | cons src srcs =>
      obtain ⟨hne, hrest⟩ := not_or.1 (mt List.mem_cons.2 h)
      exact (ih hrest).trans (dup2_of_ne hne)

/-- A descriptor ends up where it is sent to, if no source is the target of another one. -/
theorem preExec_of_mem (hnodup : dsts.Nodup) (hdisjoint : ∀ src ∈ srcs, src ∉ dsts)
    (hopen : ∀ src ∈ srcs, (fds src).isSome = true) (h : (dst, src) ∈ dsts.zip srcs) :
    preExec dsts srcs fds dst = fds src := by
  induction dsts generalizing srcs fds with
  | nil => cases h
  | cons dst' dsts ih =>
    cases srcs with
    | nil => cases h
    | cons src' srcs =>
      obtain ⟨hnew, hnodup⟩ := List.nodup_cons.1 hnodup
      have hkept {src : Nat} (hsrc : src ∈ srcs) : dup2 fds src' dst' src = fds src :=
        dup2_of_ne fun heq => hdisjoint src (List.mem_cons_of_mem _ hsrc) (heq ▸ List.mem_cons_self)
      rcases List.mem_cons.1 h with hfirst | hlater
      · cases hfirst
        exact (preExec_of_notMem hnew).trans (dup2_self (hopen src List.mem_cons_self))
      · have hsrc : src ∈ srcs := (List.of_mem_zip hlater).2
        have hdisjoint' : ∀ src ∈ srcs, src ∉ dsts := fun src hsrc hmem =>
          hdisjoint src (List.mem_cons_of_mem _ hsrc) (List.mem_cons_of_mem _ hmem)
        have hopen' : ∀ src ∈ srcs, (dup2 fds src' dst' src).isSome = true := by
          intro src hsrc
          rw [hkept hsrc]
          exact hopen src (List.mem_cons_of_mem _ hsrc)
        exact (ih hnodup hdisjoint' hopen' hlater).trans (hkept hsrc)

theorem lookup_zip {keys values : List Nat} {k v : Nat} (hnodup : keys.Nodup)
    (h : (k, v) ∈ keys.zip values) : (keys.zip values).lookup k = some v := by
  induction keys generalizing values with
  | nil => cases h
  | cons key keys ih =>
    cases values with
    | nil => cases h
    | cons value values =>
      obtain ⟨hnew, hnodup⟩ := List.nodup_cons.1 hnodup
      rw [List.zip_cons_cons, List.lookup_cons]
      rcases List.mem_cons.1 h with hfirst | hlater
      · cases hfirst
        simp
      · have hne : k ≠ key := fun heq => hnew (heq ▸ (List.of_mem_zip hlater).1)
        rw [beq_false_of_ne hne]
        exact ih hnodup hlater

theorem exists_mem_zip {keys values : List Nat} {k : Nat} (hlen : values.length = keys.length)
    (h : k ∈ keys) : ∃ v, (k, v) ∈ keys.zip values := by
  induction keys generalizing values with
  | nil => cases h
  | cons key keys ih =>
    cases values with
    | nil => cases hlen
    | cons value values =>
      rcases List.mem_cons.1 h with rfl | hlater
      · exact ⟨value, List.mem_cons_self⟩
      · obtain ⟨v, hv⟩ := ih (Nat.succ.inj hlen) hlater
        exact ⟨v, List.mem_cons_of_mem _ hv⟩

theorem mem_zip_swap {keys values : List Nat} {k v : Nat} (h : (k, v) ∈ keys.zip values) :
    (v, k) ∈ values.zip keys := by
  induction keys generalizing values with
  | nil => cases h
  | cons key keys ih =>
    cases values with
    | nil => cases h
    | cons value values =>
      rcases List.mem_cons.1 h with hfirst | hlater
      · cases hfirst
        exact List.mem_cons_self
      · exact List.mem_cons_of_mem _ (ih hlater)

end Descriptors

namespace Session

variable {s : Session D} {absolutize : Dir → Str → Str} {policy : EscalationPolicy} {null : D}

theorem childFds_of_mem {r n : Nat} (h : (r, n) ∈ s.received.zip s.sent) :
    s.childFds null r = s.fds n := by
  have hstd : ¬r < 3 := Nat.not_lt.2 (s.received_new r (List.of_mem_zip h).1)
  rw [childFds, if_neg hstd, lookup_zip s.received_nodup h]

theorem preExec_childFds (hdisjoint : ∀ n ∈ s.received, n ∉ s.sent) :
    ∀ n ∈ s.sent, preExec s.sent s.received (s.childFds null) n = s.fds n := by
  intro n hn
  obtain ⟨r, hr⟩ := exists_mem_zip s.received_length hn
  rw [preExec_of_mem s.sent_nodup hdisjoint ?_ hr]
  · exact childFds_of_mem (mem_zip_swap hr)
  · intro r hr
    obtain ⟨n, hn⟩ := exists_mem_zip s.received_length.symm hr
    rw [childFds_of_mem hn]
    exact s.sent_open n (List.of_mem_zip hn).2

/-- What `absolutize` is documented to do. -/
def Absolutizes (absolutize : Dir → Str → Str) : Prop :=
  ∀ (dir : Dir) (path : Str), absolutize dir path = pathOf (lexical dir.names path)

theorem sameFile_iff (h : Absolutizes absolutize) :
    s.SameFile (absolutize s.server s.file) ↔ s.SamePath := by
  have hprefix {loc X : Loc} (hloc : s.Known loc) (hX : X <+: loc) : s.Known X :=
    hloc.imp hX.trans hX.trans
  have hknown (t : LinkTree) : (∀ loc, s.Known loc → t.node loc = some .dir) ↔
      t.node s.client.names = some .dir ∧ t.node s.server.names = some .dir := by
    refine ⟨fun h => ⟨h _ (.inl List.prefix_rfl), h _ (.inr List.prefix_rfl)⟩,
      fun ⟨hclient, hserver⟩ loc hloc => ?_⟩
    obtain ⟨rest, hrest⟩ | ⟨rest, hrest⟩ := hloc
    · exact dir_of_append (hrest.symm ▸ hclient)
    · exact dir_of_append (hrest.symm ▸ hserver)
  have hcwd : s.Known s.client.names := .inl List.prefix_rfl
  have hnames : ∀ name ∈ lexical s.server.names s.file, Path.IsName name :=
    isName_lexical s.server.isName
  have hiff := lookup_eq_pathOf_iff (p := s.file) hprefix hcwd hnames (maxLinks - 1)
  rw [h]
  constructor
  · intro hsame
    obtain ⟨hnil, hlexical, hcertain, hmust⟩ := hiff.1 fun t ht =>
      (hsame t ((hknown t).1 ht).1 ((hknown t).1 ht).2).symm
    exact ⟨hnil, hlexical, hcertain, hmust⟩
  · rintro ⟨hnil, hlexical, hcertain, hmust⟩ t hclient hserver
    exact (hiff.2 ⟨hnil, hlexical, hcertain, hmust⟩ t ((hknown t).2 ⟨hclient, hserver⟩)).symm

theorem absolutize_path (h : Absolutizes absolutize) :
    absolutize s.server s.client.path = s.client.path := by
  rw [h, Dir.path, lexical_pathOf s.client.isName]

theorem overlap_eq_false_iff : (s.sent.any fun src => s.received.any fun dst => dst = src) = false ↔
    ∀ n ∈ s.received, n ∉ s.sent := by
  simp only [List.any_eq_false, decide_eq_true_eq, Bool.not_eq_true]
  constructor
  · intro h n hreceived hsent
    exact h n hsent n hreceived rfl
  · rintro h n hsent r hreceived rfl
    exact h r hreceived hsent

/-- The server is to run this. -/
theorem spawned_eq (h : s.Escalable) :
    s.spawned absolutize null =
      .spawned
        { file := absolutize s.server s.file
          argv := s.argv
          workdir := absolutize s.server s.client.path
          env := fun name => (sentEnv s.env name).or (s.serverEnv name)
          fds := preExec s.sent s.received (s.childFds null) } := by
  have hlen : ¬s.received.length ≠ s.sent.length := not_not.2 s.received_length
  obtain ⟨arg0, args, hargv⟩ := List.exists_cons_of_ne_nil h.argv_ne_nil
  have hrequest : s.request.argv = arg0 :: args := hargv
  rw [spawned, superExec, if_neg hlen, overlap_eq_false_iff.2 h.disjoint,
    if_neg Bool.false_ne_true, hargv]
  simp only [hrequest]
  rfl

/-- A command that the server runs with the environment that was sent. -/
theorem escalable_of_spawned {exec : Exec D}
    (h : s.spawned absolutize null = .spawned exec) (henv : exec.env = sentEnv s.env) :
    s.Escalable := by
  have hlen : ¬s.received.length ≠ s.sent.length := not_not.2 s.received_length
  rw [spawned, superExec, if_neg hlen] at h
  cases hoverlap : s.sent.any fun src => s.received.any fun dst => dst = src with
  | true =>
    rw [hoverlap, if_pos rfl] at h
    cases h
  | false =>
    rw [hoverlap, if_neg Bool.false_ne_true] at h
    cases hargv : s.argv with
    | nil =>
      have hrequest : s.request.argv = [] := hargv
      simp only [hrequest] at h
      cases h
    | cons arg0 args =>
      have hrequest : s.request.argv = arg0 :: args := hargv
      simp only [hrequest, Spawned.spawned.injEq] at h
      subst h
      refine ⟨by simp [hargv], fun name hname => ?_, overlap_eq_false_iff.1 hoverlap⟩
      have hboth : (sentEnv s.env name).or (s.serverEnv name) = sentEnv s.env name :=
        congrFun henv name
      rwa [hname, Option.none_or] at hboth

theorem env_eq (h : s.Escalable) :
    (fun name => (sentEnv s.env name).or (s.serverEnv name)) = sentEnv s.env := by
  funext name
  cases hname : sentEnv s.env name with
  | none => rw [Option.none_or, h.serverEnv name hname]
  | some value => rfl

theorem outcome_of_escalate (h : s.answer absolutize policy = .ok .escalate) :
    s.outcome absolutize policy null = (s.spawned absolutize null).outcome := by
  simp only [outcome, h]

theorem spawned_of_outcome {spawned : Spawned D} {exec : Exec D}
    (h : spawned.outcome = .server exec) : spawned = .spawned exec := by
  cases spawned with
  | error | panicked => cases h
  | spawned exec' =>
    cases h
    rfl

/-- The session does what the intercepted call meant if and only if the path is the same for both
sides and, where the policy escalates, the command is one that the server can take over. -/
theorem faithful_iff (h : Absolutizes absolutize) :
    s.Faithful absolutize policy null ↔
      s.SamePath ∧ (s.answer absolutize policy = .ok .escalate → s.Escalable) := by
  constructor
  · intro hfaithful
    refine ⟨(sameFile_iff h).1 hfaithful.decided, fun hanswer => ?_⟩
    obtain ⟨exec, houtcome, -, -, -, henv, -⟩ := hfaithful.escalated hanswer
    rw [outcome_of_escalate hanswer] at houtcome
    exact escalable_of_spawned (spawned_of_outcome houtcome) henv
  · rintro ⟨hpath, hescalable⟩
    have hsame : s.SameFile (absolutize s.server s.file) := (sameFile_iff h).2 hpath
    refine ⟨hsame, ?_, fun reason hanswer => ?_, fun hanswer => ?_, fun hanswer => ?_⟩
    · cases hanswer : s.answer absolutize policy with
      | error err => simp [outcome, hanswer]
      | ok action =>
        cases action with
        | run | deny => simp [outcome, hanswer]
        | escalate =>
          rw [outcome_of_escalate hanswer, spawned_eq (hescalable hanswer)]
          simp [Spawned.outcome]
    · simp only [outcome, hanswer]
    · refine ⟨s.execv, ?_, fun _ _ _ => rfl, rfl, rfl, rfl, fun _ _ => rfl⟩
      simp only [outcome, hanswer]
    · have hcan := hescalable hanswer
      have hspawned : s.spawned absolutize null = .spawned _ := spawned_eq hcan
      exact ⟨_, (outcome_of_escalate hanswer).trans (congrArg Spawned.outcome hspawned), hsame, rfl,
        absolutize_path h, env_eq hcan, preExec_childFds hcan.disjoint⟩

/-! ### Three descriptors -/

private def home : Dir := ⟨["home".toList], by
  intro name hname
  obtain rfl := List.mem_singleton.1 hname
  exact ⟨by decide, by decide, by decide, by decide⟩⟩

private def rootDir : Dir := ⟨[], by simp⟩

private def standard (file : Str) (argv : List Str) (server : Dir) (serverEnv : Environ) :
    Session Nat where
  file := file
  argv := argv
  client := home
  env := fun _ => none
  fds := some
  sent := [0, 1, 2]
  sent_nodup := by decide
  sent_open := fun _ _ => rfl
  server := server
  serverEnv := serverEnv
  serverFds := fun _ => none
  received := [7, 8, 9]
  received_nodup := by decide
  received_length := rfl
  received_new := by decide

private def lexicalPath (dir : Dir) (path : Str) : Str := pathOf (lexical dir.names path)

private theorem absolutizes_lexicalPath : Absolutizes lexicalPath := fun _ _ => rfl

private def answering (action : EscalateAction) : EscalationPolicy := fun _ _ _ => .ok action

private def absoluteFile : Session Nat :=
  standard "/bin/ls".toList ["ls".toList] rootDir fun _ => none

theorem faithful_iff_absolute : absoluteFile.Faithful lexicalPath (answering .escalate) 0 := by
  have hbody : bodyOf "/bin/ls".toList = [.normal "bin".toList, .normal "ls".toList] := by decide
  refine (faithful_iff absolutizes_lexicalPath).2 ⟨⟨by decide, by decide, ?_, ?_⟩,
    fun _ => ⟨by decide, fun _ _ => rfl, by decide⟩⟩
  · change Certain absoluteFile.Known _ (bodyOf "/bin/ls".toList)
    rw [hbody]
    simp [Certain]
  · exact fun hmust => absurd hmust (by decide)

private def relativeFile : Session Nat :=
  standard "tool".toList ["tool".toList] rootDir fun _ => none

private def noArguments : Session Nat := standard "/bin/ls".toList [] rootDir fun _ => none

private def secretive : Session Nat :=
  standard "/bin/ls".toList ["ls".toList] rootDir fun _ => some "secret".toList

/-- The policy decides on `/tool` and the client runs `/home/tool`; a call without arguments makes
the handler panic; a command that the server runs has the variables of the server too. -/
theorem unfaithful_sessions :
    ¬relativeFile.Faithful lexicalPath (answering .run) 0 ∧
    noArguments.outcome lexicalPath (answering .escalate) 0 = .panicked ∧
    ¬secretive.Faithful lexicalPath (answering .escalate) 0 := by
  refine ⟨fun h => ?_, rfl, fun h => ?_⟩
  · have hpath := (sameFile_iff absolutizes_lexicalPath).1 h.decided
    exact absurd hpath.lexical_eq (by decide)
  · obtain ⟨exec, houtcome, -, -, -, henv, -⟩ := h.escalated rfl
    rw [outcome_of_escalate rfl] at houtcome
    have hescalable := escalable_of_spawned (spawned_of_outcome houtcome) henv
    cases hescalable.serverEnv [] rfl

end Session

end SheriMl.ExecServer
