import SheriMl.ExecPolicy.Tightening

/-!
# Proposed amendments

The prefix a request for approval proposes to allow from now on. Where the model
asked for one, the code looks at its shape alone: not empty, and none of the generic
prefixes. Otherwise it is the whole first segment that made the heuristics prompt,
generic or not: of `python` the documentation itself proposes `python`.
-/

namespace SheriMl.ExecPolicy

open Shell Protocol

def isBannedPrefix (command : List Str) : Bool :=
  bannedPrefixSuggestions.any fun banned => command = banned.map String.toList

def CausesPrompt (pf : Platform) (p : Policy) (req : ExecApprovalRequest) (segment : List Str) :
    Prop :=
  segment ∈ segments pf req ∧
    ∃ m ∈ p.matchesForCommand segment (heuristics pf req), m.decision = .prompt

/-- The rule that allows a prefix matches a segment. -/
def AllowRuleMatches (command segment : List Str) : Prop :=
  ∃ first rest, command = first :: rest ∧
    ((Policy.prefixRule first rest .allow).matches segment).isSome = true

/-- What is proposed is not generic, and the rule made of it matches a segment that
caused the prompt. -/
def ProposalsVetted (pf : Platform) (shlexTryJoin : List Str → Option Str) (p : Policy)
    (req : ExecApprovalRequest) : Prop :=
  ∀ reason a, createExecApprovalRequirementForCommand pf shlexTryJoin p req =
      some (.needsApproval reason (some a)) →
    (∀ p', p.addPrefixRule a.command .allow = .ok p' →
      ∃ segment, CausesPrompt pf p req segment ∧ AllowRuleMatches a.command segment) ∧
    isBannedPrefix a.command = false

variable {pf : Platform} {shlexTryJoin : List Str → Option Str} {p : Policy}
  {req : ExecApprovalRequest} {a : ExecPolicyAmendment} {reason : Option Str}
  {matchedRules : List RuleMatch} {requested : Option (List Str)} {segment : List Str}

/-! ## The three sources of a proposal -/

theorem deriveRequested_eq_some
    (h : deriveRequestedExecpolicyAmendment requested matchedRules = some a) :
    requested = some a.command ∧ a.command ≠ [] ∧ isBannedPrefix a.command = false ∧
      matchedRules.any isPolicyPrompt = false := by
  cases requested with
  | none => cases h
  | some command =>
    simp only [deriveRequestedExecpolicyAmendment, Option.bind_eq_bind, Option.bind_some,
      Option.bind_eq_some_iff, Option.pure_def, Option.some.injEq] at h
    obtain ⟨_, hne, _, hbanned, _, hprompt, rfl⟩ := h
    refine ⟨rfl, ?_, ?_, ?_⟩
    · rintro rfl
      cases hne
    · cases hb : isBannedPrefix command with
      | false => rfl
      | true =>
        rw [isBannedPrefix] at hb
        rw [hb] at hbanned
        cases hbanned
    · cases hp : matchedRules.any isPolicyPrompt with
      | false => rfl
      | true =>
        rw [hp] at hprompt
        cases hprompt

theorem unusable_of_deriveRequested
    (h : deriveRequestedExecpolicyAmendment requested matchedRules = none)
    (hprompt : matchedRules.any isPolicyPrompt = false) :
    ∀ command, requested = some command → command = [] ∨ isBannedPrefix command = true := by
  rintro command rfl
  by_contra hcon
  obtain ⟨hne, hbanned⟩ := not_or.1 hcon
  have hempty : command.isEmpty = false := by
    rwa [Bool.eq_false_iff, ne_eq, List.isEmpty_iff]
  rw [Bool.not_eq_true, isBannedPrefix] at hbanned
  simp only [deriveRequestedExecpolicyAmendment, Option.bind_eq_bind, Option.bind_some, hempty,
    hbanned, hprompt] at h
  cases h

theorem tryDerive_eq_some (h : tryDeriveExecpolicyAmendmentForPromptRules matchedRules = some a) :
    matchedRules.any isPolicyPrompt = false ∧
      RuleMatch.heuristicsRuleMatch a.command .prompt ∈ matchedRules := by
  unfold tryDeriveExecpolicyAmendmentForPromptRules at h
  split at h
  · cases h
  · next hprompt =>
    obtain ⟨m, hm, ha⟩ := List.exists_of_findSome?_eq_some h
    refine ⟨Bool.eq_false_of_not_eq_true hprompt, ?_⟩
    cases m with
    | prefixRuleMatch pre d j => cases ha
    | heuristicsRuleMatch command d =>
      simp only [heuristicsCommand] at ha
      split at ha
      · next hd =>
        cases ha
        rwa [hd] at hm
      · cases ha

theorem needsApproval_some_cases {e : Evaluation} (he : evaluateRequest pf p req = some e)
    (h : createExecApprovalRequirementForCommand pf shlexTryJoin p req =
      some (.needsApproval reason (some a))) :
    e.decision = .prompt ∧ e.matchedRules.any isPolicyPrompt = false ∧
      ((req.prefixRule = some a.command ∧ a.command ≠ [] ∧ isBannedPrefix a.command = false) ∨
        (∀ command, req.prefixRule = some command →
          command = [] ∨ isBannedPrefix command = true) ∧
        RuleMatch.heuristicsRuleMatch a.command .prompt ∈ e.matchedRules) := by
  unfold createExecApprovalRequirementForCommand at h
  simp only [he, Option.bind_eq_bind, Option.bind_some] at h
  cases hdec : e.decision with
  | allow => simp [hdec] at h
  | forbidden => simp [hdec] at h
  | prompt =>
    simp only [hdec, Option.pure_def] at h
    split at h
    · cases h
    · simp only [Option.some.injEq, ExecApprovalRequirement.needsApproval.injEq] at h
      cases hreq : deriveRequestedExecpolicyAmendment req.prefixRule e.matchedRules with
      | some a' =>
        rw [hreq] at h
        obtain rfl : a' = a := Option.some.inj h.2
        obtain ⟨hrule, hne, hbanned, hprompt⟩ := deriveRequested_eq_some hreq
        exact ⟨rfl, hprompt, .inl ⟨hrule, hne, hbanned⟩⟩
      | none =>
        rw [hreq] at h
        have h2 := h.2
        simp only [Option.orElse_none] at h2
        split at h2
        · obtain ⟨hprompt, hmem⟩ := tryDerive_eq_some h2
          exact ⟨rfl, hprompt, .inr ⟨unusable_of_deriveRequested hreq hprompt, hmem⟩⟩
        · cases h2

/-! ## Proposals and segments -/

/-- A declaration without alternatives covers the commands it is a prefix of. -/
theorem covers_singletons {tokens cmd : List Str} {d : Decision} :
    Declared.Covers ⟨tokens.map fun token => [token], d⟩ cmd ↔ tokens <+: cmd := by
  induction tokens generalizing cmd with
  | nil => simp
  | cons token tokens ih =>
    cases cmd with
    | nil => simp
    | cons first args => simp [ih, List.cons_prefix_cons, eq_comm]

theorem isSome_prefixRule_matches {first : Str} {rest cmd : List Str} {d : Decision} :
    ((Policy.prefixRule first rest d).matches cmd).isSome = true ↔ first :: rest <+: cmd := by
  have hmap : (rest.map PatternToken.single).map PatternToken.alternatives =
      rest.map fun token => [token] := by
    rw [List.map_map]
    rfl
  rw [Policy.prefixRule, isSome_matches_iff, hmap, ← covers_singletons (d := d), List.map_cons]

theorem allowRuleMatches_iff {command : List Str} :
    AllowRuleMatches command segment ↔ command ≠ [] ∧ command <+: segment := by
  constructor
  · rintro ⟨first, rest, rfl, h⟩
    exact ⟨List.cons_ne_nil _ _, isSome_prefixRule_matches.1 h⟩
  · rintro ⟨hne, h⟩
    obtain ⟨first, rest, rfl⟩ := List.exists_cons_of_ne_nil hne
    exact ⟨first, rest, rfl, isSome_prefixRule_matches.2 h⟩

theorem unmatched_of_heuristicsRuleMatch {e : Evaluation} {d : Decision}
    (he : evaluateRequest pf p req = some e)
    (hm : RuleMatch.heuristicsRuleMatch segment d ∈ e.matchedRules) :
    segment ∈ segments pf req ∧ p.ruleMatches segment = [] ∧ heuristics pf req segment = d := by
  rw [Policy.matchedRules_of_checkMultiple he] at hm
  obtain ⟨c, hc, hm⟩ := List.mem_flatMap.1 hm
  by_cases hnil : p.ruleMatches c = []
  · rw [Policy.matchesForCommand_of_nil hnil, List.mem_singleton] at hm
    cases hm
    exact ⟨hc, hnil, rfl⟩
  · rw [Policy.matchesForCommand_of_ne_nil hnil] at hm
    obtain ⟨pre, d, j, h⟩ := Policy.isPrefixRuleMatch_of_mem hm
    cases h

theorem prompt_notMem_decisions {e : Evaluation} (he : evaluateRequest pf p req = some e)
    (h : e.matchedRules.any isPolicyPrompt = false) (hseg : segment ∈ segments pf req) :
    Decision.prompt ∉ p.decisions segment := by
  intro hmem
  obtain ⟨m, hm, hd⟩ := List.mem_map.1 hmem
  have hm' : m ∈ e.matchedRules := by
    rw [Policy.matchedRules_of_checkMultiple he]
    refine List.mem_flatMap.2 ⟨segment, hseg, ?_⟩
    rwa [Policy.matchesForCommand_of_ne_nil (List.ne_nil_of_mem hm)]
  obtain ⟨pre, d, j, rfl⟩ := Policy.isPrefixRuleMatch_of_mem hm
  have hany := List.any_eq_false.1 h _ hm'
  rw [isPolicyPrompt, hd] at hany
  exact hany rfl

theorem allow_of_addPrefixRule {p' : Policy} {fallback : List Str → Decision}
    (hnil : p.ruleMatches segment = []) (h : p.addPrefixRule segment .allow = .ok p') :
    AllowRuleMatches segment segment ∧
      ∀ m ∈ p'.matchesForCommand segment fallback, m.decision = .allow := by
  obtain ⟨first, rest, rfl, rfl⟩ := Policy.addPrefixRule_eq_ok.1 h
  have hself : AllowRuleMatches (first :: rest) (first :: rest) :=
    allowRuleMatches_iff.2 ⟨List.cons_ne_nil _ _, List.prefix_refl _⟩
  refine ⟨hself, fun m hm => ?_⟩
  obtain ⟨_, _, heq, hsome⟩ := hself
  cases heq
  obtain ⟨m', hm'⟩ := Option.isSome_iff_exists.1 hsome
  have hmatches : (p.insert first (Policy.prefixRule first rest .allow)).ruleMatches
      (first :: rest) = [m'] := by
    rw [← Option.toList_some, ← hm', ← List.nil_append (Option.toList _), ← hnil]
    exact Policy.ruleMatches_addRule (Policy.prefixRule first rest .allow)
  rw [Policy.matchesForCommand_of_ne_nil (by simp [hmatches]), hmatches, List.mem_singleton] at hm
  rw [hm]
  exact decision_of_matches hm'

/-- A proposal comes where no rule prompts. It is the requested prefix, not empty and
not generic; or else a segment that caused the prompt, whole, and the rule made of it
matches that segment and settles it. -/
theorem proposal_spec (h : createExecApprovalRequirementForCommand pf shlexTryJoin p req =
      some (.needsApproval reason (some a))) :
    (∀ segment ∈ segments pf req, Decision.prompt ∉ p.decisions segment) ∧
      ((req.prefixRule = some a.command ∧ a.command ≠ [] ∧ isBannedPrefix a.command = false) ∨
        (∀ command, req.prefixRule = some command →
          command = [] ∨ isBannedPrefix command = true) ∧
        CausesPrompt pf p req a.command ∧
        ∀ p', p.addPrefixRule a.command .allow = .ok p' →
          AllowRuleMatches a.command a.command ∧
            ∀ m ∈ p'.matchesForCommand a.command (heuristics pf req), m.decision = .allow) := by
  obtain ⟨e, he⟩ : ∃ e, evaluateRequest pf p req = some e :=
    Policy.checkMultiple_isSome (commandsForExecPolicy_ne_nil _ _)
  obtain ⟨-, hprompt, hsource⟩ := needsApproval_some_cases he h
  refine ⟨fun segment hseg => prompt_notMem_decisions he hprompt hseg, ?_⟩
  rcases hsource with hrequested | ⟨hunusable, hmem⟩
  · exact .inl hrequested
  · obtain ⟨hseg, hnil, hheur⟩ := unmatched_of_heuristicsRuleMatch he hmem
    refine .inr ⟨hunusable, ⟨hseg, ?_⟩, fun p' hadd => allow_of_addPrefixRule hnil hadd⟩
    rw [Policy.matchesForCommand_of_nil hnil]
    exact ⟨_, List.mem_singleton_self _, hheur⟩

/-- A command without a script, in the read-only sandbox. -/
def directRequest (command : List Str) (approvalPolicy : AskForApproval)
    (prefixRule : Option (List Str)) : ExecApprovalRequest :=
  ⟨command, approvalPolicy, .newReadOnlyPolicy, .useDefault, prefixRule⟩

/-- The request with `rm -rf x` asks for an empty prefix; `rm -rf x` itself is proposed. -/
theorem proposal_spec_rm :
    (∀ segment ∈ segments linuxPlatform (directRequest ["rm", "-rf", "x"] .onRequest (some [])),
      Decision.prompt ∉ Policy.empty.decisions segment) ∧
    ((some [] = some (["rm", "-rf", "x"] : List Str) ∧ (["rm", "-rf", "x"] : List Str) ≠ [] ∧
        isBannedPrefix ["rm", "-rf", "x"] = false) ∨
      (∀ command, some ([] : List Str) = some command →
        command = [] ∨ isBannedPrefix command = true) ∧
      CausesPrompt linuxPlatform .empty (directRequest ["rm", "-rf", "x"] .onRequest (some []))
        ["rm", "-rf", "x"] ∧
      ∀ p', Policy.empty.addPrefixRule ["rm", "-rf", "x"] .allow = .ok p' →
        AllowRuleMatches ["rm", "-rf", "x"] ["rm", "-rf", "x"] ∧
          ∀ m ∈ p'.matchesForCommand ["rm", "-rf", "x"] (heuristics linuxPlatform
            (directRequest ["rm", "-rf", "x"] .onRequest (some []))), m.decision = .allow) :=
  have h : createExecApprovalRequirementForCommand linuxPlatform (fun _ => none) .empty
      (directRequest ["rm", "-rf", "x"] .onRequest (some [])) =
        some (.needsApproval none (some ⟨["rm", "-rf", "x"]⟩)) := by decide
  proposal_spec h

/-- With the prompt for `rm -rf x` the model may have `curl` proposed, which no segment
begins with; and the proposal for `python3` is a generic prefix. -/
theorem unvetted_proposals :
    ¬ ProposalsVetted linuxPlatform (fun _ => none) .empty
        (directRequest ["rm", "-rf", "x"] .onRequest (some ["curl"])) ∧
      ¬ ProposalsVetted linuxPlatform (fun _ => none) .empty
        (directRequest ["python3"] .unlessTrusted none) := by
  constructor
  · intro hvetted
    have hcurl := hvetted none ⟨["curl"]⟩ (by decide)
    obtain ⟨segment, ⟨hseg, -⟩, hmatches⟩ := hcurl.1 _ rfl
    have hsegments : segments linuxPlatform (directRequest ["rm", "-rf", "x"] .onRequest
        (some ["curl"])) = ([["rm", "-rf", "x"]] : List (List Str)) := by decide
    rw [hsegments, List.mem_singleton] at hseg
    rw [hseg, allowRuleMatches_iff] at hmatches
    exact absurd hmatches.2 (by decide)
  · intro hvetted
    have hpython := (hvetted none ⟨["python3"]⟩ (by decide)).2
    exact absurd hpython (by decide)

end SheriMl.ExecPolicy
