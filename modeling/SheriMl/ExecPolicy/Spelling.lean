import SheriMl.ExecPolicy.Approval
import SheriMl.Shell.Quoting

/-!
# Rules and the spelling of commands

Whether a rule that matches what the shell runs decides about the script that
spells it. The segments of a script are the argument vectors its reader returns;
where those are the shell's, no rule of the policy is evaded
(`segments_eq_shellArgvs_iff`). A backslash that the shell removes and the reader
keeps hides the program from every rule about it.
-/

namespace SheriMl.ExecPolicy

open Shell Protocol Quoting

/-- What a decision asks of the requirement that comes of it. -/
def ExecApprovalRequirement.honors : ExecApprovalRequirement → Decision → Bool
  | .forbidden _, _ => true
  | .needsApproval .., d => d ≠ .forbidden
  | .skip .., d => d = .allow

/-- No rule is evaded: whatever policy and request a script comes with, the rules
that match an argument vector the shell runs are honored. -/
def RulesHonored (pf : Platform) (shlexTryJoin : List Str → Option Str) (command : List Str)
    (root : Node) : Prop :=
  ∀ (p : Policy) (req : ExecApprovalRequest) (r : ExecApprovalRequirement),
    req.command = command →
    createExecApprovalRequirementForCommand pf shlexTryJoin p req = some r →
    ∀ argv ∈ shellArgvs root, ∀ m ∈ p.ruleMatches argv, r.honors m.decision = true

variable {pf : Platform} {shlexTryJoin : List Str → Option Str} {p : Policy}
  {req : ExecApprovalRequest} {r : ExecApprovalRequirement} {e : Evaluation}
  {command : List Str} {shell script : Str} {root : Node}

theorem honors_of_le (he : evaluateRequest pf p req = some e)
    (hr : createExecApprovalRequirementForCommand pf shlexTryJoin p req = some r) {d : Decision}
    (hd : d ≤ e.decision) : r.honors d = true := by
  unfold createExecApprovalRequirementForCommand at hr
  simp only [he, Option.bind_eq_bind, Option.bind_some] at hr
  cases hdec : e.decision with
  | forbidden =>
    simp only [hdec, Option.pure_def, Option.some.injEq] at hr
    rw [← hr]
    rfl
  | prompt =>
    have hne : d ≠ .forbidden := by
      rintro rfl
      rw [hdec] at hd
      exact absurd hd (by decide)
    simp only [hdec, Option.pure_def] at hr
    split at hr
    · cases hr
      rfl
    · cases hr
      exact decide_eq_true hne
  | allow =>
    rw [hdec, Decision.le_allow] at hd
    simp only [hdec, Option.pure_def, Option.some.injEq] at hr
    rw [← hr, hd]
    rfl

theorem honors_of_mem_ruleMatches
    (hr : createExecApprovalRequirementForCommand pf shlexTryJoin p req = some r)
    {argv : List Str} (hseg : argv ∈ segments pf req) {m : RuleMatch}
    (hm : m ∈ p.ruleMatches argv) : r.honors m.decision = true := by
  obtain ⟨e, he⟩ : ∃ e, evaluateRequest pf p req = some e :=
    Policy.checkMultiple_isSome (commandsForExecPolicy_ne_nil _ _)
  refine honors_of_le he hr ((Policy.isGreatest_of_checkMultiple he).2 m ?_)
  rw [Policy.matchedRules_of_checkMultiple he]
  refine List.mem_flatMap.2 ⟨argv, hseg, ?_⟩
  rwa [Policy.matchesForCommand_of_ne_nil (List.ne_nil_of_mem hm)]

/-- Where the reader returns what the shell runs, no rule is evaded. -/
theorem rulesHonored_of_eq
    (h : parseShellLcPlainCommands pf.treeSitter command = some (shellArgvs root)) :
    RulesHonored pf shlexTryJoin command root := by
  rintro p req r rfl hr argv hargv m hm
  refine honors_of_mem_ruleMatches hr ?_ hm
  have hne : (shellArgvs root).isEmpty = false := by
    rw [List.isEmpty_eq_false_iff]
    exact List.ne_nil_of_mem hargv
  simpa [segments, commandsForExecPolicy, h, Option.filter, hne] using hargv

/-- For a script of word-only commands the reader returns the argument vectors the
shell runs, and no rule about them is evaded, exactly when every word is spelled
out: it is read, and no backslash in it quotes anything. -/
theorem segments_eq_shellArgvs_iff (hcmd : extractBashCommand command = some (shell, script))
    (htree : pf.treeSitter script = some root) (h : WordOnly root) :
    (parseShellLcPlainCommands pf.treeSitter command = some (shellArgvs root) ∧
        RulesHonored pf shlexTryJoin command root) ↔ SpelledOut root := by
  have hparse : parseShellLcPlainCommands pf.treeSitter command =
      tryParseWordOnlyCommandsSequence root := by
    simp [parseShellLcPlainCommands, hcmd, htree]
  rw [← h.tryParse_eq_shellArgvs_iff, ← hparse]
  exact ⟨fun hboth => hboth.1, fun heq => ⟨heq, rulesHonored_of_eq heq⟩⟩

/-! ## Two scripts -/

def named (kind : String) (start : Nat) (text : Str) (children : List Node) : Node :=
  .mk kind true start text false children

/-- The tree of `echo "a b" 'c'd`. -/
def echoTree : Node :=
  let quote := fun start => Node.mk "\"" false start "\"" false []
  named "program" 0 "echo \"a b\" 'c'd"
    [named "command" 0 "echo \"a b\" 'c'd"
      [named "command_name" 0 "echo" [named "word" 0 "echo" []],
        named "string" 5 "\"a b\"" [quote 5, named "string_content" 6 "a b" [], quote 9],
        named "concatenation" 11 "'c'd"
          [named "raw_string" 11 "'c'" [], named "word" 14 "d" []]]]

/-- The tree of `r\m -rf /`. -/
def escapedRmTree : Node :=
  named "program" 0 "r\\m -rf /"
    [named "command" 0 "r\\m -rf /"
      [named "command_name" 0 "r\\m" [named "word" 0 "r\\m" []],
        named "word" 4 "-rf" [], named "word" 8 "/" []]]

/-- A platform whose parser knows one script. -/
def platformOf (script : Str) (tree : Node) : Platform where
  linux := true
  windows := false
  treeSitter s := if s = script then some tree else none
  isSafeCommandWindows _ := false
  isDangerousCommandWindows _ := false

theorem isWord_word {n : Node} (hk : n.kind = "word") (ht : Within .bare n.text) : IsWord n :=
  .piece (.bare (.inl hk) ht)

theorem wordOnly_echoTree : WordOnly echoTree where
  noError := rfl
  allowed := by decide
  ordered := by decide
  words := by
    intro cmd hcmd w hw
    rw [List.mem_singleton.1 hcmd] at hw
    rcases List.mem_cons.1 hw with rfl | hw
    · exact .name rfl _ rfl rfl (isWord_word rfl ⟨rfl, rfl⟩)
    · rcases List.mem_cons.1 hw with rfl | hw
      · exact .argument (.piece (.double "a b" rfl (by decide) rfl ⟨rfl, rfl⟩))
      · rw [List.mem_singleton.1 hw]
        refine .argument (.concatenation rfl ?_ rfl)
        intro p hp
        rcases List.mem_cons.1 hp with rfl | hp
        · exact .single "c" rfl rfl ⟨rfl, rfl⟩
        · rw [List.mem_singleton.1 hp]
          exact .bare (.inl rfl) ⟨rfl, rfl⟩

theorem segments_eq_shellArgvs_echo :
    parseShellLcPlainCommands (platformOf "echo \"a b\" 'c'd" echoTree).treeSitter
        ["bash", "-lc", "echo \"a b\" 'c'd"] = some (shellArgvs echoTree) ∧
      RulesHonored (platformOf "echo \"a b\" 'c'd" echoTree) (fun _ => none)
        ["bash", "-lc", "echo \"a b\" 'c'd"] echoTree :=
  (segments_eq_shellArgvs_iff rfl rfl wordOnly_echoTree).2 (by decide)

theorem wordOnly_escapedRmTree : WordOnly escapedRmTree where
  noError := rfl
  allowed := by decide
  ordered := by decide
  words := by
    intro cmd hcmd w hw
    rw [List.mem_singleton.1 hcmd] at hw
    rcases List.mem_cons.1 hw with rfl | hw
    · exact .name rfl _ rfl rfl (isWord_word rfl ⟨rfl, rfl⟩)
    · rcases List.mem_cons.1 hw with rfl | hw
      · exact .argument (isWord_word rfl ⟨rfl, rfl⟩)
      · rw [List.mem_singleton.1 hw]
        exact .argument (isWord_word rfl ⟨rfl, rfl⟩)

def escapedRm : ExecApprovalRequest where
  command := ["bash", "-lc", "r\\m -rf /"]
  approvalPolicy := .onRequest
  sandboxPolicy := .newWorkspaceWritePolicy
  sandboxPermissions := .useDefault
  prefixRule := none

def forbidRm : Policy := Policy.empty.insert "rm" (Policy.prefixRule "rm" [] .forbidden)

/-- `rm` runs without approval although a rule forbids it: the rule is asked about the
program `r\m`. -/
theorem not_rulesHonored_escapedRm :
    WordOnly escapedRmTree ∧
      parseShellLcPlainCommands (platformOf "r\\m -rf /" escapedRmTree).treeSitter
        escapedRm.command = some ([["r\\m", "-rf", "/"]] : List (List Str)) ∧
      shellArgvs escapedRmTree = ([["rm", "-rf", "/"]] : List (List Str)) ∧
      forbidRm.ruleMatches ["rm", "-rf", "/"] = [.prefixRuleMatch ["rm"] .forbidden none] ∧
      createExecApprovalRequirementForCommand (platformOf "r\\m -rf /" escapedRmTree)
        (fun _ => none) forbidRm escapedRm =
          some (.skip false (some ⟨["r\\m", "-rf", "/"]⟩)) ∧
      ¬ RulesHonored (platformOf "r\\m -rf /" escapedRmTree) (fun _ => none)
        escapedRm.command escapedRmTree := by
  have hargv : shellArgvs escapedRmTree = ([["rm", "-rf", "/"]] : List (List Str)) := by decide
  have hrule : forbidRm.ruleMatches ["rm", "-rf", "/"] =
      [.prefixRuleMatch ["rm"] .forbidden none] := by decide
  have hskip : createExecApprovalRequirementForCommand
      (platformOf "r\\m -rf /" escapedRmTree) (fun _ => none) forbidRm escapedRm =
        some (.skip false (some ⟨["r\\m", "-rf", "/"]⟩)) := by decide
  refine ⟨wordOnly_escapedRmTree, by decide, hargv, hrule, hskip, fun hhonored => ?_⟩
  have hmem : (["rm", "-rf", "/"] : List Str) ∈ shellArgvs escapedRmTree := by
    rw [hargv]
    exact List.mem_singleton_self _
  have hforbidden := hhonored forbidRm escapedRm _ rfl hskip _ hmem
    (.prefixRuleMatch ["rm"] .forbidden none) (by rw [hrule]; exact List.mem_singleton_self _)
  exact absurd hforbidden (by decide)

end SheriMl.ExecPolicy
