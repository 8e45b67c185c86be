import SheriMl.ExecPolicy.Policy
import SheriMl.Protocol.SandboxPolicy
import SheriMl.Shell.CommandSafety

/-!
# Approval requirements of commands

`core/src/exec_policy.rs`: a command is split into segments, the policy is
evaluated over them with the heuristics for segments that no rule matches, and
the evaluation decides whether the command is skipped past approval, with or
without the sandbox, needs approval, or is forbidden.

The bypass of the sandbox asks for *some* allowing rule among all the matches,
so it says nothing about the segments that the heuristics let through
(`bypassCovered_iff`).
-/

namespace SheriMl.ExecPolicy

open Shell Protocol

/-- A proposed rule: a prefix to allow from now on. -/
structure ExecPolicyAmendment where
  command : List Str
  deriving DecidableEq

/-- What the orchestrator should do with a command. -/
inductive ExecApprovalRequirement where
  | skip (bypassSandbox : Bool) (proposedExecpolicyAmendment : Option ExecPolicyAmendment)
  | needsApproval (reason : Option Str)
      (proposedExecpolicyAmendment : Option ExecPolicyAmendment)
  | forbidden (reason : Str)
  deriving DecidableEq

structure ExecApprovalRequest where
  command : List Str
  approvalPolicy : AskForApproval
  sandboxPolicy : SandboxPolicy
  sandboxPermissions : SandboxPermissions
  prefixRule : Option (List Str)

/-! ## Segments and their heuristics -/

/-- The segments of a command, and whether only the here-document reader gave them. -/
def commandsForExecPolicy (ts : TreeSitter) (command : List Str) : List (List Str) × Bool :=
  match (parseShellLcPlainCommands ts command).filter fun commands => !commands.isEmpty with
  | some commands => (commands, false)
  | none =>
    match parseShellLcSingleCommandPrefix ts command with
    | some singleCommand => ([singleCommand], true)
    | none => ([command], false)

/-- The decision for a segment that no rule matches. -/
def renderDecisionForUnmatchedCommand (pf : Platform) (approvalPolicy : AskForApproval)
    (sandboxPolicy : SandboxPolicy) (command : List Str)
    (sandboxPermissions : SandboxPermissions) : Decision :=
  if isKnownSafeCommand pf command then .allow
  else
    -- the read-only sandbox of Windows is no real sandbox
    let runtimeSandboxProvidesSafety := pf.windows &&
      match sandboxPolicy with
      | .readOnly _ => true
      | _ => false
    if commandMightBeDangerous pf command || runtimeSandboxProvidesSafety then
      if approvalPolicy = .never then .forbidden else .prompt
    else
      match approvalPolicy with
      | .never | .onFailure => .allow
      | .unlessTrusted => .prompt
      | .onRequest =>
        match sandboxPolicy with
        | .dangerFullAccess | .externalSandbox _ => .allow
        | .readOnly _ | .workspaceWrite .. =>
          if sandboxPermissions.requiresEscalatedPermissions then .prompt else .allow

/-! ## Amendments -/

def isPolicyMatch : RuleMatch → Bool
  | .prefixRuleMatch .. => true
  | .heuristicsRuleMatch .. => false

def isPolicyPrompt (ruleMatch : RuleMatch) : Bool :=
  isPolicyMatch ruleMatch && ruleMatch.decision = .prompt

/-- The command of a heuristics match with the given decision. -/
def heuristicsCommand (decision : Decision) : RuleMatch → Option ExecPolicyAmendment
  | .heuristicsRuleMatch command d => if d = decision then some ⟨command⟩ else none
  | .prefixRuleMatch .. => none

def bannedPrefixSuggestions : List (List String) :=
  [["python3"], ["python3", "-"], ["python3", "-c"], ["python"], ["python", "-"],
    ["python", "-c"], ["py"], ["py", "-3"], ["pythonw"], ["pyw"], ["pypy"], ["pypy3"], ["git"],
    ["bash"], ["bash", "-lc"], ["sh"], ["sh", "-c"], ["sh", "-lc"], ["zsh"], ["zsh", "-lc"],
    ["/bin/zsh"], ["/bin/zsh", "-lc"], ["/bin/bash"], ["/bin/bash", "-lc"], ["pwsh"],
    ["pwsh", "-Command"], ["pwsh", "-c"], ["powershell"], ["powershell", "-Command"],
    ["powershell", "-c"], ["powershell.exe"], ["powershell.exe", "-Command"],
    ["powershell.exe", "-c"], ["env"], ["sudo"], ["node"], ["node", "-e"], ["perl"],
    ["perl", "-e"], ["ruby"], ["ruby", "-e"], ["php"], ["php", "-r"], ["lua"], ["lua", "-e"],
    ["osascript"]]

def tryDeriveExecpolicyAmendmentForPromptRules (matchedRules : List RuleMatch) :
    Option ExecPolicyAmendment :=
  if matchedRules.any isPolicyPrompt then none
  else matchedRules.findSome? (heuristicsCommand .prompt)

def tryDeriveExecpolicyAmendmentForAllowRules (matchedRules : List RuleMatch) :
    Option ExecPolicyAmendment :=
  if matchedRules.any isPolicyMatch then none
  else matchedRules.findSome? (heuristicsCommand .allow)

def deriveRequestedExecpolicyAmendment (prefixRule : Option (List Str))
    (matchedRules : List RuleMatch) : Option ExecPolicyAmendment := do
  let prefixRule ← prefixRule
  guard !prefixRule.isEmpty
  guard !bannedPrefixSuggestions.any fun banned => prefixRule = banned.map String.toList
  guard !matchedRules.any isPolicyPrompt
  return ⟨prefixRule⟩

/-! ## Reasons -/

def promptConflictReason : Str :=
  "approval required by policy, but AskForApproval is set to Never"

section Reasons

-- `shlex::try_join`, which fails on a nul byte
variable (shlexTryJoin : List Str → Option Str)

def renderShlexCommand (args : List Str) : Str :=
  (shlexTryJoin args).getD (Str.join " " args)

/-- The last longest matched prefix among the rule matches with a decision, and its
justification (`max_by_key` keeps the last maximum). -/
def mostSpecific (decision : Decision) (matchedRules : List RuleMatch) :
    Option (List Str × Option Str) :=
  (matchedRules.filterMap fun
    | .prefixRuleMatch matchedPrefix d justification =>
      if d = decision then some (matchedPrefix, justification) else none
    | .heuristicsRuleMatch .. => none).foldl
    (fun best m =>
      match best with
      | some b => if b.1.length ≤ m.1.length then some m else some b
      | none => some m)
    none

/-- A reason only when a rule drove the prompt. -/
def derivePromptReason (commandArgs : List Str) (evaluation : Evaluation) : Option Str :=
  let command := renderShlexCommand shlexTryJoin commandArgs
  (mostSpecific .prompt evaluation.matchedRules).map fun
    | (_, some justification) =>
      ("`" : Str) ++ command ++ ("` requires approval: " : Str) ++ justification
    | (_, none) => ("`" : Str) ++ command ++ ("` requires approval by policy" : Str)

def deriveForbiddenReason (commandArgs : List Str) (evaluation : Evaluation) : Str :=
  let command := renderShlexCommand shlexTryJoin commandArgs
  match mostSpecific .forbidden evaluation.matchedRules with
  | some (_, some justification) =>
    ("`" : Str) ++ command ++ ("` rejected: " : Str) ++ justification
  | some (matchedPrefix, none) =>
    ("`" : Str) ++ command ++ ("` rejected: policy forbids commands starting with `" : Str) ++
      renderShlexCommand shlexTryJoin matchedPrefix ++ ("`" : Str)
  | none => ("`" : Str) ++ command ++ ("` rejected: blocked by policy" : Str)

end Reasons

/-! ## The requirement -/

/-- The policy's evaluation of the segments of a request. -/
def evaluateRequest (pf : Platform) (p : Policy) (req : ExecApprovalRequest) :
    Option Evaluation :=
  p.checkMultiple (commandsForExecPolicy pf.treeSitter req.command).1 fun cmd =>
    renderDecisionForUnmatchedCommand pf req.approvalPolicy req.sandboxPolicy cmd
      req.sandboxPermissions

/-- Bypass the sandbox if the exec policy allows the command. -/
def bypassSandbox (matchedRules : List RuleMatch) : Bool :=
  matchedRules.any fun ruleMatch => isPolicyMatch ruleMatch && ruleMatch.decision = .allow

/-- `none` is the panic of an evaluation over no matches
(`exists_createExecApprovalRequirementForCommand`: it does not happen). -/
def createExecApprovalRequirementForCommand (pf : Platform)
    (shlexTryJoin : List Str → Option Str) (p : Policy) (req : ExecApprovalRequest) :
    Option ExecApprovalRequirement := do
  let autoAmendmentAllowed := !(commandsForExecPolicy pf.treeSitter req.command).2
  let evaluation ← evaluateRequest pf p req
  let requestedAmendment :=
    deriveRequestedExecpolicyAmendment req.prefixRule evaluation.matchedRules
  match evaluation.decision with
  | .forbidden =>
    return .forbidden (deriveForbiddenReason shlexTryJoin req.command evaluation)
  | .prompt =>
    if req.approvalPolicy = .never then return .forbidden promptConflictReason
    else
      return .needsApproval (derivePromptReason shlexTryJoin req.command evaluation)
        (requestedAmendment.orElse fun _ =>
          if autoAmendmentAllowed then
            tryDeriveExecpolicyAmendmentForPromptRules evaluation.matchedRules
          else none)
  | .allow =>
    return .skip (bypassSandbox evaluation.matchedRules)
      (if autoAmendmentAllowed then
        tryDeriveExecpolicyAmendmentForAllowRules evaluation.matchedRules
      else none)

/-! ## When the sandbox is bypassed -/

variable {pf : Platform} (shlexTryJoin : List Str → Option Str) {p : Policy}
  {req : ExecApprovalRequest}

/-- The segments the policy is evaluated over. -/
def segments (pf : Platform) (req : ExecApprovalRequest) : List (List Str) :=
  (commandsForExecPolicy pf.treeSitter req.command).1

/-- The heuristics' decision for a segment of the request. -/
def heuristics (pf : Platform) (req : ExecApprovalRequest) (segment : List Str) : Decision :=
  renderDecisionForUnmatchedCommand pf req.approvalPolicy req.sandboxPolicy segment
    req.sandboxPermissions

theorem commandsForExecPolicy_ne_nil (ts : TreeSitter) (command : List Str) :
    (commandsForExecPolicy ts command).1 ≠ [] := by
  unfold commandsForExecPolicy
  split
  · next commands h =>
    have := (Option.filter_eq_some_iff.1 h).2
    simpa using this
  · split <;> simp

/-- Every request is answered: its evaluation is never over an empty list. -/
theorem exists_createExecApprovalRequirementForCommand (pf : Platform)
    (shlexTryJoin : List Str → Option Str) (p : Policy) (req : ExecApprovalRequest) :
    ∃ r, createExecApprovalRequirementForCommand pf shlexTryJoin p req = some r := by
  obtain ⟨e, he⟩ : ∃ e, evaluateRequest pf p req = some e :=
    Policy.checkMultiple_isSome (commandsForExecPolicy_ne_nil _ _)
  rw [createExecApprovalRequirementForCommand, he]
  simp only [Option.bind_eq_bind, Option.bind_some]
  cases e.decision with
  | allow => exact ⟨_, rfl⟩
  | forbidden => exact ⟨_, rfl⟩
  | prompt =>
    by_cases h : req.approvalPolicy = .never
    · exact ⟨_, if_pos h⟩
    · exact ⟨_, if_neg h⟩

theorem exists_skip_true_iff :
    (∃ amendment, createExecApprovalRequirementForCommand pf shlexTryJoin p req =
        some (.skip true amendment)) ↔
      ∃ e, evaluateRequest pf p req = some e ∧ e.decision = .allow ∧
        bypassSandbox e.matchedRules = true := by
  unfold createExecApprovalRequirementForCommand
  cases he : evaluateRequest pf p req with
  | none => simp
  | some e =>
    simp only [Option.bind_eq_bind, Option.bind_some, Option.some.injEq, exists_eq_left']
    cases hd : e.decision with
    | allow => simp
    | forbidden => simp
    | prompt =>
      by_cases h : req.approvalPolicy = .never
      · simp [h]
      · simp [h]

/-- A segment that a rule with decision `Allow` matches. -/
def AllowedByRule (p : Policy) (segment : List Str) : Prop :=
  ∃ first args, segment = first :: args ∧
    ∃ r ∈ p.rulesFor first, r.decision = .allow ∧ (r.matches segment).isSome

theorem allowedByRule_iff {segment : List Str} :
    AllowedByRule p segment ↔ ∃ m ∈ p.ruleMatches segment, m.decision = .allow := by
  constructor
  · rintro ⟨first, args, rfl, r, hr, hallow, hm⟩
    obtain ⟨m, hm⟩ := Option.isSome_iff_exists.1 hm
    refine ⟨m, Policy.mem_ruleMatches.2 ⟨first, args, rfl, r, hr, hm⟩, ?_⟩
    obtain ⟨pre, -, rfl⟩ := Option.map_eq_some_iff.1 hm
    exact hallow
  · rintro ⟨m, hm, hallow⟩
    obtain ⟨first, args, rfl, r, hr, hrm⟩ := Policy.mem_ruleMatches.1 hm
    obtain ⟨pre, -, rfl⟩ := Option.map_eq_some_iff.1 hrm
    exact ⟨first, args, rfl, r, hr, hallow, by rw [hrm]; rfl⟩

/-- Every decision over the segments allows. -/
def AllAllow (pf : Platform) (p : Policy) (req : ExecApprovalRequest) : Prop :=
  ∀ segment ∈ segments pf req,
    ∀ m ∈ p.matchesForCommand segment (heuristics pf req), m.decision = .allow

theorem exists_skip_true_iff_matches :
    (∃ amendment, createExecApprovalRequirementForCommand pf shlexTryJoin p req =
        some (.skip true amendment)) ↔
      AllAllow pf p req ∧ ∃ segment ∈ segments pf req, p.ruleMatches segment ≠ [] := by
  obtain ⟨e, he⟩ : ∃ e, evaluateRequest pf p req = some e :=
    Policy.checkMultiple_isSome (commandsForExecPolicy_ne_nil _ _)
  rw [exists_skip_true_iff]
  simp only [he, Option.some.injEq, exists_eq_left']
  rw [Policy.decision_eq_allow_iff he, bypassSandbox, Policy.matchedRules_of_checkMultiple he]
  refine and_congr_right fun hall => ?_
  simp only [List.any_eq_true, List.mem_flatMap, Bool.and_eq_true, decide_eq_true_eq]
  constructor
  · rintro ⟨m, ⟨segment, hs, hm⟩, hpolicy, -⟩
    refine ⟨segment, hs, fun hnil => ?_⟩
    -- an unmatched segment contributes its heuristics match only
    rw [Policy.matchesForCommand_of_nil hnil, List.mem_singleton] at hm
    subst hm
    simp [isPolicyMatch] at hpolicy
  · rintro ⟨segment, hs, hne⟩
    obtain ⟨m, hm⟩ := List.exists_mem_of_ne_nil _ hne
    have hm' : m ∈ p.matchesForCommand segment (heuristics pf req) := by
      rwa [Policy.matchesForCommand_of_ne_nil hne]
    obtain ⟨pre, d, j, rfl⟩ := Policy.isPrefixRuleMatch_of_mem hm
    exact ⟨_, ⟨segment, hs, hm'⟩, rfl, hall segment hs _ hm'⟩

/-- Whenever the sandbox is bypassed, an allowing rule matches every segment. -/
def BypassCovered (pf : Platform) (shlexTryJoin : List Str → Option Str) (p : Policy)
    (req : ExecApprovalRequest) : Prop :=
  ∀ amendment, createExecApprovalRequirementForCommand pf shlexTryJoin p req =
      some (.skip true amendment) →
    ∀ segment ∈ segments pf req, AllowedByRule p segment

/-- Rules match some segments and not others; what matches allows, and so do the
heuristics for the rest. -/
structure MixedAllowed (pf : Platform) (p : Policy) (req : ExecApprovalRequest) : Prop where
  matched : ∃ segment ∈ segments pf req, p.ruleMatches segment ≠ []
  unmatched : ∃ segment ∈ segments pf req, p.ruleMatches segment = []
  rulesAllow : ∀ segment ∈ segments pf req, ∀ m ∈ p.ruleMatches segment, m.decision = .allow
  heuristicsAllow : ∀ segment ∈ segments pf req, p.ruleMatches segment = [] →
    heuristics pf req segment = .allow

theorem allAllow_iff : AllAllow pf p req ↔
    (∀ segment ∈ segments pf req, ∀ m ∈ p.ruleMatches segment, m.decision = .allow) ∧
      ∀ segment ∈ segments pf req, p.ruleMatches segment = [] →
        heuristics pf req segment = .allow := by
  rw [← forall₂_and]
  refine forall₂_congr fun segment _ => ?_
  by_cases h : p.ruleMatches segment = []
  · rw [Policy.matchesForCommand_of_nil h]
    simp [h, RuleMatch.decision]
  · rw [Policy.matchesForCommand_of_ne_nil h]
    simp [h]

/-- The sandbox is bypassed only for segments that allowing rules match, exactly when
the request is not a mix of rule-allowed and heuristically allowed segments. -/
theorem bypassCovered_iff (pf : Platform) (shlexTryJoin : List Str → Option Str) (p : Policy)
    (req : ExecApprovalRequest) :
    BypassCovered pf shlexTryJoin p req ↔ ¬ MixedAllowed pf p req := by
  constructor
  · rintro hcov ⟨hmatched, ⟨segment, hs, hnil⟩, hrules, hheur⟩
    obtain ⟨amendment, hskip⟩ := (exists_skip_true_iff_matches shlexTryJoin).2
      ⟨allAllow_iff.2 ⟨hrules, hheur⟩, hmatched⟩
    obtain ⟨m, hm, -⟩ := allowedByRule_iff.1 (hcov amendment hskip segment hs)
    rw [hnil] at hm
    exact List.not_mem_nil hm
  · intro hmix amendment hskip segment hs
    obtain ⟨hall, hmatched⟩ := (exists_skip_true_iff_matches shlexTryJoin).1 ⟨amendment, hskip⟩
    obtain ⟨hrules, hheur⟩ := allAllow_iff.1 hall
    have hne : p.ruleMatches segment ≠ [] := fun hnil =>
      hmix ⟨hmatched, ⟨segment, hs, hnil⟩, hrules, hheur⟩
    obtain ⟨m, hm⟩ := List.exists_mem_of_ne_nil _ hne
    exact allowedByRule_iff.2 ⟨m, hm, hrules segment hs m hm⟩

/-- The tree of `make && curl x`. -/
def makeAndCurlTree : Node :=
  let word := fun (start : Nat) (text : Str) => Node.mk "word" true start text false []
  let name := fun (start : Nat) (text : Str) =>
    Node.mk "command_name" true start text false [word start text]
  let list := Node.mk "list" true 0 "make && curl x" false
    [.mk "command" true 0 "make" false [name 0 "make"],
      .mk "&&" false 5 "&&" false [],
      .mk "command" true 8 "curl x" false [name 8 "curl", word 13 "x"]]
  .mk "program" true 0 "make && curl x" false [list]

def linuxPlatform : Platform where
  linux := true
  windows := false
  treeSitter script := if script = "make && curl x" then some makeAndCurlTree else none
  isSafeCommandWindows _ := false
  isDangerousCommandWindows _ := false

def makeAndCurl : ExecApprovalRequest where
  command := ["bash", "-lc", "make && curl x"]
  approvalPolicy := .onRequest
  sandboxPolicy := .newReadOnlyPolicy
  sandboxPermissions := .useDefault
  prefixRule := none

def allowMake : Policy := Policy.empty.insert "make" (Policy.prefixRule "make" [] .allow)

example : segments linuxPlatform makeAndCurl =
    [["make"], ["curl", "x"]].map (List.map String.toList) := by decide

/-- `curl` is let through to run in the read-only sandbox; the rule for `make` takes
the sandbox away from both. -/
theorem not_bypassCovered_makeAndCurl :
    createExecApprovalRequirementForCommand linuxPlatform (fun _ => none) allowMake makeAndCurl =
        some (.skip true none) ∧
      ¬ AllowedByRule allowMake ["curl", "x"] ∧
      ¬ BypassCovered linuxPlatform (fun _ => none) allowMake makeAndCurl := by
  have hskip : createExecApprovalRequirementForCommand linuxPlatform (fun _ => none) allowMake
      makeAndCurl = some (.skip true none) := by decide
  have hcurl : ¬ AllowedByRule allowMake ["curl", "x"] := by
    rw [allowedByRule_iff]
    decide
  exact ⟨hskip, hcurl, fun hcov => hcurl (hcov none hskip _ (by decide))⟩

end SheriMl.ExecPolicy
