import Mathlib.Data.List.AList
import Mathlib.Order.MinMax
import SheriMl.Lib.Str

/-!
# Exec policies

`execpolicy/src/{decision,rule,policy}.rs`: prefix rules keyed by their first
token, the rules that match a command, and the evaluation of several commands,
whose decision is the strictest of all matches. A command that no rule matches
gets one heuristics match, whose decision the caller's fallback renders.
-/

namespace SheriMl.ExecPolicy

/-- Decisions, from the most permissive to the strictest. -/
inductive Decision where
  | allow
  | prompt
  | forbidden
  deriving DecidableEq

namespace Decision

def rank : Decision → Nat
  | allow => 0
  | prompt => 1
  | forbidden => 2

theorem rank_injective : Function.Injective rank := by
  intro a b h
  cases a <;> cases b <;> simp_all [rank]

/-- The derived order of the source: `Allow < Prompt < Forbidden`. -/
instance : LinearOrder Decision := LinearOrder.lift' rank rank_injective

instance : Std.LawfulOrderMax Decision where
  max_le_iff _ _ _ := max_le_iff
  max_eq_or := max_choice

theorem allow_le (d : Decision) : allow ≤ d := Nat.zero_le _

theorem le_allow {d : Decision} : d ≤ allow ↔ d = allow :=
  ⟨fun h => le_antisymm h (allow_le d), fun h => h ▸ le_refl _⟩

end Decision

inductive PatternToken where
  | single (value : Str)
  | alts (alternatives : List Str)

def PatternToken.matches : PatternToken → Str → Bool
  | single expected, token => expected = token
  | alts alternatives, token => alternatives.contains token

/-- A prefix of tokens; the first is fixed since it keys the policy. -/
structure PrefixPattern where
  first : Str
  rest : List PatternToken

def PrefixPattern.matchesPrefix (p : PrefixPattern) (cmd : List Str) : Option (List Str) :=
  let patternLength := p.rest.length + 1
  match cmd with
  | [] => none
  | cmd0 :: args =>
    if cmd.length < patternLength || cmd0 ≠ p.first then none
    else if (p.rest.zip args).all fun (pat, tok) => pat.matches tok then
      some (cmd.take patternLength)
    else none

inductive RuleMatch where
  | prefixRuleMatch (matchedPrefix : List Str) (decision : Decision)
      (justification : Option Str)
  | heuristicsRuleMatch (command : List Str) (decision : Decision)
  deriving DecidableEq

def RuleMatch.decision : RuleMatch → Decision
  | prefixRuleMatch _ d _ => d
  | heuristicsRuleMatch _ d => d

structure PrefixRule where
  pattern : PrefixPattern
  decision : Decision
  justification : Option Str

/-- `Rule::matches`. -/
def PrefixRule.matches (r : PrefixRule) (cmd : List Str) : Option RuleMatch :=
  (r.pattern.matchesPrefix cmd).map fun matchedPrefix =>
    .prefixRuleMatch matchedPrefix r.decision r.justification

/-- The rules, listed under their program in the order of insertion. -/
structure Policy where
  rulesByProgram : AList fun _ : Str => List PrefixRule

inductive PolicyError where
  | invalidPattern (message : Str)

namespace Policy

def empty : Policy := ⟨∅⟩

/-- `MultiMap::get_vec`, with no rules for an absent program. -/
def rulesFor (p : Policy) (program : Str) : List PrefixRule :=
  (p.rulesByProgram.lookup program).getD []

/-- `MultiMap::insert`. -/
def insert (p : Policy) (program : Str) (rule : PrefixRule) : Policy :=
  ⟨p.rulesByProgram.insert program (p.rulesFor program ++ [rule])⟩

/-- The rule `add_prefix_rule` adds for the prefix `first :: rest`. -/
def prefixRule (first : Str) (rest : List Str) (decision : Decision) : PrefixRule :=
  ⟨⟨first, rest.map .single⟩, decision, none⟩

def addPrefixRule (p : Policy) : List Str → Decision → Except PolicyError Policy
  | [], _ => .error (.invalidPattern "prefix cannot be empty")
  | first :: rest, decision => .ok (p.insert first (prefixRule first rest decision))

def ruleMatches (p : Policy) : List Str → List RuleMatch
  | [] => []
  | first :: args => (p.rulesFor first).filterMap (·.matches (first :: args))

/-- `matches_for_command` with a heuristics fallback: never empty. -/
def matchesForCommand (p : Policy) (cmd : List Str) (fallback : List Str → Decision) :
    List RuleMatch :=
  let matchedRules := p.ruleMatches cmd
  if matchedRules.isEmpty then [.heuristicsRuleMatch cmd (fallback cmd)] else matchedRules

end Policy

structure Evaluation where
  decision : Decision
  matchedRules : List RuleMatch

/-- `from_matches`; `none` is the panic on an empty list. -/
def Evaluation.fromMatches (matchedRules : List RuleMatch) : Option Evaluation :=
  (matchedRules.map RuleMatch.decision).max?.map fun decision => ⟨decision, matchedRules⟩

def Policy.checkMultiple (p : Policy) (commands : List (List Str))
    (fallback : List Str → Decision) : Option Evaluation :=
  Evaluation.fromMatches (commands.flatMap fun command => p.matchesForCommand command fallback)

/-! ## Rules and matches -/

namespace Policy

variable {p : Policy} {cmd : List Str} {fallback : List Str → Decision} {m : RuleMatch}

@[simp] theorem rulesFor_insert (program : Str) (rule : PrefixRule) :
    (p.insert program rule).rulesFor program = p.rulesFor program ++ [rule] := by
  simp [insert, rulesFor]

theorem rulesFor_insert_of_ne {program other : Str} (rule : PrefixRule) (h : other ≠ program) :
    (p.insert program rule).rulesFor other = p.rulesFor other := by
  simp [insert, rulesFor, AList.lookup_insert_ne h]

/-- Adding a rule keeps every rule that was there. -/
theorem mem_rulesFor_insert {program other : Str} {r rule : PrefixRule}
    (h : r ∈ p.rulesFor other) : r ∈ (p.insert program rule).rulesFor other := by
  by_cases e : other = program
  · subst e
    rw [rulesFor_insert]
    exact List.mem_append_left _ h
  · rwa [rulesFor_insert_of_ne rule e]

/-- The rule that allows a prefix is in the policy. -/
def AllowsPrefix (p : Policy) (command : List Str) : Prop :=
  ∃ first rest, command = first :: rest ∧ prefixRule first rest .allow ∈ p.rulesFor first

theorem addPrefixRule_eq_ok {p' : Policy} {d : Decision} :
    p.addPrefixRule cmd d = .ok p' ↔
      ∃ first rest, cmd = first :: rest ∧ p' = p.insert first (prefixRule first rest d) := by
  cases cmd with
  | nil => simp [addPrefixRule]
  | cons first rest => simp [addPrefixRule, eq_comm]

theorem allowsPrefix_of_addPrefixRule {p' : Policy} (h : p.addPrefixRule cmd .allow = .ok p') :
    p'.AllowsPrefix cmd := by
  obtain ⟨first, rest, rfl, rfl⟩ := addPrefixRule_eq_ok.1 h
  refine ⟨first, rest, rfl, ?_⟩
  rw [rulesFor_insert]
  exact List.mem_append_right _ List.mem_cons_self

theorem AllowsPrefix.addPrefixRule {p' : Policy} {d : Decision} {command : List Str}
    (ha : p.AllowsPrefix command) (h : p.addPrefixRule cmd d = .ok p') :
    p'.AllowsPrefix command := by
  obtain ⟨first, rest, rfl, hmem⟩ := ha
  obtain ⟨first', rest', rfl, rfl⟩ := addPrefixRule_eq_ok.1 h
  exact ⟨first, rest, rfl, mem_rulesFor_insert hmem⟩

/-- A rule match is the match of a rule kept under the command's program. -/
theorem mem_ruleMatches : m ∈ p.ruleMatches cmd ↔
    ∃ first args, cmd = first :: args ∧ ∃ r ∈ p.rulesFor first, r.matches cmd = some m := by
  cases cmd with
  | nil => simp [ruleMatches]
  | cons first args =>
    simp only [ruleMatches, List.mem_filterMap]
    constructor
    · intro h
      exact ⟨first, args, rfl, h⟩
    · rintro ⟨_, _, e, h⟩
      cases e
      exact h

theorem isPrefixRuleMatch_of_mem (h : m ∈ p.ruleMatches cmd) :
    ∃ pre d j, m = .prefixRuleMatch pre d j := by
  obtain ⟨first, args, -, r, -, hr⟩ := mem_ruleMatches.1 h
  obtain ⟨pre, -, rfl⟩ := Option.map_eq_some_iff.1 hr
  exact ⟨pre, r.decision, r.justification, rfl⟩

theorem matchesForCommand_of_nil (h : p.ruleMatches cmd = []) :
    p.matchesForCommand cmd fallback = [.heuristicsRuleMatch cmd (fallback cmd)] := by
  simp [matchesForCommand, h]

theorem matchesForCommand_of_ne_nil (h : p.ruleMatches cmd ≠ []) :
    p.matchesForCommand cmd fallback = p.ruleMatches cmd := by
  simp [matchesForCommand, List.isEmpty_iff, h]

theorem matchesForCommand_ne_nil : p.matchesForCommand cmd fallback ≠ [] := by
  by_cases h : p.ruleMatches cmd = []
  · simp [matchesForCommand_of_nil h]
  · rwa [matchesForCommand_of_ne_nil h]

/-- The evaluation of at least one command exists: the panic is unreachable. -/
theorem checkMultiple_isSome {commands : List (List Str)} (h : commands ≠ []) :
    ∃ e, p.checkMultiple commands fallback = some e := by
  unfold checkMultiple Evaluation.fromMatches
  cases hm : commands.flatMap fun command => p.matchesForCommand command fallback with
  | nil =>
    obtain ⟨c, hc⟩ := List.exists_mem_of_ne_nil _ h
    rw [List.flatMap_eq_nil_iff] at hm
    exact absurd (hm c hc) matchesForCommand_ne_nil
  | cons m ms => simp

theorem matchedRules_of_checkMultiple {commands : List (List Str)} {e : Evaluation}
    (h : p.checkMultiple commands fallback = some e) :
    e.matchedRules = commands.flatMap fun command => p.matchesForCommand command fallback := by
  obtain ⟨d, -, rfl⟩ := Option.map_eq_some_iff.1 h
  rfl

theorem isGreatest_of_checkMultiple {commands : List (List Str)} {e : Evaluation}
    (h : p.checkMultiple commands fallback = some e) :
    e.decision ∈ e.matchedRules.map RuleMatch.decision ∧
      ∀ m ∈ e.matchedRules, m.decision ≤ e.decision := by
  obtain ⟨d, hd, rfl⟩ := Option.map_eq_some_iff.1 h
  rw [List.max?_eq_some_iff] at hd
  exact ⟨hd.1, fun m hm => hd.2 _ (List.mem_map_of_mem hm)⟩

theorem decision_eq_allow_iff {commands : List (List Str)} {e : Evaluation}
    (h : p.checkMultiple commands fallback = some e) :
    e.decision = .allow ↔
      ∀ c ∈ commands, ∀ m ∈ p.matchesForCommand c fallback, m.decision = .allow := by
  obtain ⟨hmem, hle⟩ := isGreatest_of_checkMultiple h
  rw [matchedRules_of_checkMultiple h] at hmem hle
  constructor
  · intro hd c hc m hm
    have hm' := hle m (List.mem_flatMap.2 ⟨c, hc, hm⟩)
    rw [hd] at hm'
    exact Decision.le_allow.1 hm'
  · intro hall
    obtain ⟨m, hm, hd⟩ := List.mem_map.1 hmem
    obtain ⟨c, hc, hcm⟩ := List.mem_flatMap.1 hm
    rw [← hd]
    exact hall c hc m hcm

end Policy

end SheriMl.ExecPolicy
