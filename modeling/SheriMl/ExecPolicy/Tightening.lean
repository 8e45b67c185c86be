import SheriMl.ExecPolicy.Approval
import SheriMl.ExecPolicy.Parser

/-!
# Adding stricter rules

A rule that prompts or forbids, added to a policy, against the same request before
and after. A segment it matches no longer meets the heuristics, so a decision can go
down: the heuristics forbid a dangerous command where prompts are disabled, and a rule
that prompts takes their place. There a prompt is a refusal too, and the requirement
stays as strict (`requiredStrictness_add_le`).
-/

namespace SheriMl.ExecPolicy

open Shell Protocol Strictest

/-- `Skip < NeedsApproval < Forbidden`. -/
def ExecApprovalRequirement.strictness : ExecApprovalRequirement → Nat
  | .skip .. => 0
  | .needsApproval .. => 1
  | .forbidden _ => 2

/-- The command runs outside the sandbox. -/
def ExecApprovalRequirement.bypassesSandbox : ExecApprovalRequirement → Bool
  | .skip bypassSandbox _ => bypassSandbox
  | .needsApproval .. | .forbidden _ => false

/-- How strict the requirement is that comes of a decision. -/
def requiredStrictness (approvalPolicy : AskForApproval) : Decision → Nat
  | .allow => 0
  | .prompt => if approvalPolicy = .never then 2 else 1
  | .forbidden => 2

theorem requiredStrictness_mono (approvalPolicy : AskForApproval) {d d' : Decision} (h : d ≤ d') :
    requiredStrictness approvalPolicy d ≤ requiredStrictness approvalPolicy d' := by
  cases d with
  | allow => exact Nat.zero_le _
  | prompt =>
    cases d' with
    | allow => exact absurd h (by decide)
    | prompt => exact le_rfl
    | forbidden =>
      simp only [requiredStrictness]
      split
      · exact le_rfl
      · exact Nat.le_succ 1
  | forbidden =>
    cases d' with
    | allow => exact absurd h (by decide)
    | prompt => exact absurd h (by decide)
    | forbidden => exact le_rfl

variable {pf : Platform} {shlexTryJoin : List Str → Option Str} {p : Policy}
  {req : ExecApprovalRequest} {r : ExecApprovalRequirement} {e : Evaluation}
  {shlex : Parser.Shlex} {a : Addition} {rule : Declared} {d : Decision} {segment : List Str}

theorem strictness_of_create (he : evaluateRequest pf p req = some e)
    (hr : createExecApprovalRequirementForCommand pf shlexTryJoin p req = some r) :
    r.strictness = requiredStrictness req.approvalPolicy e.decision := by
  unfold createExecApprovalRequirementForCommand at hr
  simp only [he, Option.bind_eq_bind, Option.bind_some] at hr
  cases hdec : e.decision with
  | allow | forbidden =>
    simp only [hdec, Option.pure_def, Option.some.injEq] at hr
    rw [← hr]
    rfl
  | prompt =>
    simp only [hdec, Option.pure_def] at hr
    rw [requiredStrictness]
    split at hr
    · next h =>
      cases hr
      rw [if_pos h]
      rfl
    · next h =>
      cases hr
      rw [if_neg h]
      rfl

theorem approvalPolicy_of_heuristics (h : heuristics pf req segment = .forbidden) :
    req.approvalPolicy = .never := by
  by_contra hne
  unfold heuristics renderDecisionForUnmatchedCommand at h
  simp only [hne, if_false] at h
  split at h
  · cases h
  · generalize (commandMightBeDangerous pf segment || _) = dangerous at h
    cases dangerous with
    | true => cases h
    | false =>
      simp only [Bool.false_eq_true, if_false] at h
      split at h
      · cases h
      · cases h
      · cases h
      · split at h
        · cases h
        · cases h
        · split at h <;> cases h
        · split at h <;> cases h

/-! ## The evaluation and its segments -/

theorem le_decision_of_mem_decisions (he : evaluateRequest pf p req = some e)
    (hseg : segment ∈ segments pf req) (hd : d ∈ p.decisions segment) : d ≤ e.decision := by
  obtain ⟨m, hm, rfl⟩ := List.mem_map.1 hd
  refine (Policy.isGreatest_of_checkMultiple he).2 m ?_
  rw [Policy.matchedRules_of_checkMultiple he]
  refine List.mem_flatMap.2 ⟨segment, hseg, ?_⟩
  rwa [Policy.matchesForCommand_of_ne_nil (List.ne_nil_of_mem hm)]

theorem heuristics_le_decision (he : evaluateRequest pf p req = some e)
    (hseg : segment ∈ segments pf req) (hnil : p.ruleMatches segment = []) :
    heuristics pf req segment ≤ e.decision := by
  have hm : RuleMatch.heuristicsRuleMatch segment (heuristics pf req segment) ∈
      e.matchedRules := by
    rw [Policy.matchedRules_of_checkMultiple he]
    refine List.mem_flatMap.2 ⟨segment, hseg, ?_⟩
    rw [Policy.matchesForCommand_of_nil hnil]
    exact List.mem_singleton_self _
  exact (Policy.isGreatest_of_checkMultiple he).2 _ hm

theorem decision_cases (he : evaluateRequest pf p req = some e) :
    ∃ segment ∈ segments pf req, e.decision ∈ p.decisions segment ∨
      p.ruleMatches segment = [] ∧ e.decision = heuristics pf req segment := by
  obtain ⟨m, hm, hd⟩ := List.mem_map.1 (Policy.isGreatest_of_checkMultiple he).1
  rw [Policy.matchedRules_of_checkMultiple he] at hm
  obtain ⟨segment, hseg, hm⟩ := List.mem_flatMap.1 hm
  refine ⟨segment, hseg, ?_⟩
  by_cases hnil : p.ruleMatches segment = []
  · rw [Policy.matchesForCommand_of_nil hnil, List.mem_singleton] at hm
    subst hm
    exact .inr ⟨hnil, hd.symm⟩
  · rw [Policy.matchesForCommand_of_ne_nil hnil] at hm
    exact .inl (List.mem_map.2 ⟨m, hm, hd⟩)

theorem ruleMatches_eq_nil_iff : p.ruleMatches segment = [] ↔ ∀ d, d ∉ p.decisions segment := by
  rw [← List.eq_nil_iff_forall_not_mem, Policy.decisions, List.map_eq_nil_iff]

/-! ## Before and after -/

/-- A stricter rule relaxes no requirement: a forbidding decision of the heuristics
that it replaces came with an approval policy under which a prompt is refused. -/
theorem requiredStrictness_add_le {e' : Evaluation} (ha : a.declared shlex = some rule)
    (hrule : rule.decision ≠ .allow) (he : evaluateRequest pf p req = some e)
    (he' : evaluateRequest pf (p.add shlex a) req = some e') :
    requiredStrictness req.approvalPolicy e.decision ≤
      requiredStrictness req.approvalPolicy e'.decision := by
  obtain ⟨segment, hseg, hd | ⟨hnil, hd⟩⟩ := decision_cases he
  · have hd' : e.decision ∈ (p.add shlex a).decisions segment := Policy.mem_decisions_add.2 (.inl hd)
    exact requiredStrictness_mono _ (le_decision_of_mem_decisions he' hseg hd')
  by_cases hnil' : (p.add shlex a).ruleMatches segment = []
  · rw [hd]
    exact requiredStrictness_mono _ (heuristics_le_decision he' hseg hnil')
  -- the rule took the heuristics' place on this segment
  obtain ⟨d, hmem⟩ : ∃ d, d ∈ (p.add shlex a).decisions segment := by
    simpa [ruleMatches_eq_nil_iff] using hnil'
  have hle := le_decision_of_mem_decisions he' hseg hmem
  rcases Policy.mem_decisions_add.1 hmem with hold | ⟨r, hr, -, rfl⟩
  · exact absurd hold (ruleMatches_eq_nil_iff.1 hnil d)
  · obtain rfl : rule = r := Option.some.inj (ha.symm.trans hr)
    cases hforbidden : e.decision with
    | allow => exact Nat.zero_le _
    | prompt =>
      refine requiredStrictness_mono _ (le_trans ?_ hle)
      cases hd' : rule.decision with
      | allow => exact absurd hd' hrule
      | prompt => exact le_rfl
      | forbidden => decide
    | forbidden =>
      have hnever := approvalPolicy_of_heuristics (hd.symm.trans hforbidden)
      cases hd' : e'.decision with
      | allow =>
        rw [hd'] at hle
        exact absurd (Decision.le_allow.1 hle) hrule
      | prompt =>
        rw [requiredStrictness, requiredStrictness, if_pos hnever]
      | forbidden => exact le_rfl

/-- Where the sandbox is bypassed after a stricter rule is added, it was before. -/
theorem exists_skip_true_of_add (ha : a.declared shlex = some rule)
    (hrule : rule.decision ≠ .allow)
    (h : ∃ amendment, createExecApprovalRequirementForCommand pf shlexTryJoin (p.add shlex a) req =
      some (.skip true amendment)) :
    ∃ amendment, createExecApprovalRequirementForCommand pf shlexTryJoin p req =
      some (.skip true amendment) := by
  rw [exists_skip_true_iff_matches, allAllow_iff] at h ⊢
  obtain ⟨⟨hrules, hheur⟩, segment, hseg, hne⟩ := h
  -- whatever matches now is a rule that matched before
  have hold : ∀ segment ∈ segments pf req, ∀ d ∈ (p.add shlex a).decisions segment,
      d ∈ p.decisions segment := by
    intro segment hseg d hd
    obtain ⟨m, hm, hmd⟩ := List.mem_map.1 hd
    rcases Policy.mem_decisions_add.1 hd with hd | ⟨r, hr, -, rfl⟩
    · exact hd
    · obtain rfl : rule = r := Option.some.inj (ha.symm.trans hr)
      exact absurd (hmd.symm.trans (hrules segment hseg m hm)) hrule
  have hnil : ∀ segment ∈ segments pf req, p.ruleMatches segment = [] →
      (p.add shlex a).ruleMatches segment = [] := by
    intro segment hseg hnil
    rw [ruleMatches_eq_nil_iff] at hnil ⊢
    exact fun d hd => hnil d (hold segment hseg d hd)
  refine ⟨⟨fun segment hseg m hm => ?_, fun segment hseg h => ?_⟩, segment, hseg, ?_⟩
  · have hd : m.decision ∈ (p.add shlex a).decisions segment :=
      Policy.mem_decisions_add.2 (.inl (List.mem_map_of_mem hm))
    obtain ⟨m', hm', hd⟩ := List.mem_map.1 hd
    rw [← hd]
    exact hrules segment hseg m' hm'
  · exact hheur segment hseg (hnil segment hseg h)
  · exact fun h => hne (hnil segment hseg h)

/-- Adding a rule that prompts or forbids never relaxes the requirement of a request
and never takes the sandbox away from it. -/
theorem strictness_add (pf : Platform) (shlexTryJoin : List Str → Option Str) (p : Policy)
    (req : ExecApprovalRequest) (shlex : Parser.Shlex) (a : Addition) (rule : Declared)
    (ha : a.declared shlex = some rule)
    (hrule : rule.decision = .prompt ∨ rule.decision = .forbidden) :
    ∃ before after,
      createExecApprovalRequirementForCommand pf shlexTryJoin p req = some before ∧
      createExecApprovalRequirementForCommand pf shlexTryJoin (p.add shlex a) req = some after ∧
      before.strictness ≤ after.strictness ∧
      (after.bypassesSandbox = true → before.bypassesSandbox = true) := by
  have hne : rule.decision ≠ .allow := by
    intro h
    rcases hrule with hrule | hrule
    · cases h.symm.trans hrule
    · cases h.symm.trans hrule
  obtain ⟨e, he⟩ : ∃ e, evaluateRequest pf p req = some e :=
    Policy.checkMultiple_isSome (commandsForExecPolicy_ne_nil _ _)
  obtain ⟨e', he'⟩ : ∃ e, evaluateRequest pf (p.add shlex a) req = some e :=
    Policy.checkMultiple_isSome (commandsForExecPolicy_ne_nil _ _)
  obtain ⟨before, hbefore⟩ := exists_createExecApprovalRequirementForCommand pf shlexTryJoin p req
  obtain ⟨after, hafter⟩ :=
    exists_createExecApprovalRequirementForCommand pf shlexTryJoin (p.add shlex a) req
  refine ⟨before, after, hbefore, hafter, ?_, fun hbypass => ?_⟩
  · rw [strictness_of_create he hbefore, strictness_of_create he' hafter]
    exact requiredStrictness_add_le ha hne he he'
  · cases after with
    | needsApproval reason amendment => cases hbypass
    | forbidden reason => cases hbypass
    | skip bypass amendment =>
      obtain rfl : bypass = true := hbypass
      obtain ⟨amendment', h⟩ := exists_skip_true_of_add ha hne ⟨amendment, hafter⟩
      obtain rfl := Option.some.inj (hbefore.symm.trans h)
      rfl

/-- `prefix_rule(pattern = [["curl", "wget"]], decision = "prompt")`. -/
def promptDownloads : Addition :=
  .prefixRule ⟨[.list [.str "curl", .str "wget"]], some "prompt", none, none, none⟩

/-- A platform's lexer that is never asked. -/
def idleShlex : Parser.Shlex := ⟨fun _ => none, fun _ => none⟩

/-- `make && curl x` ran outside the sandbox and needs an approval now. -/
theorem strictness_add_makeAndCurl :
    ∃ before after,
      createExecApprovalRequirementForCommand linuxPlatform (fun _ => none) allowMake makeAndCurl =
        some before ∧
      createExecApprovalRequirementForCommand linuxPlatform (fun _ => none)
        (allowMake.add idleShlex promptDownloads) makeAndCurl = some after ∧
      before.strictness ≤ after.strictness ∧
      (after.bypassesSandbox = true → before.bypassesSandbox = true) :=
  strictness_add linuxPlatform (fun _ => none) allowMake makeAndCurl idleShlex promptDownloads
    ⟨[["curl", "wget"]], .prompt⟩ (by decide) (.inl rfl)

end SheriMl.ExecPolicy
