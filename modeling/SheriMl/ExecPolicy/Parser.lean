import SheriMl.ExecPolicy.Policy
import SheriMl.Lib.Result
import SheriMl.Lib.Strictest

/-!
# Rules files

The `prefix_rule` builtin of `execpolicy/src/parser.rs`: a rules file declares a
pattern whose every token may have alternatives, and the builder gets one rule for
each alternative of the first token, since the policy is keyed by it. The rest of a
file is Starlark's and not modelled: a file is the calls it makes.

A declaration covers the commands that its alternatives match token by token
(`Declared.Covers`), whatever the expansion made of it. What a policy built by any
calls decides about commands is read off the declarations alone
(`decision_build`), so the order of the calls does not matter.
-/

namespace SheriMl.ExecPolicy

open Strictest

namespace Parser

/-- The errors of `error.rs` that `prefix_rule` returns; rules stand unrendered. -/
inductive Error where
  | invalidDecision (raw : Str)
  | invalidPattern (message : Str)
  | invalidExample (message : Str)
  | invalidRule (message : Str)
  | exampleDidNotMatch (rules : List PrefixRule) (examples : List Str)
  | exampleDidMatch (rule : PrefixRule) (ex : Str)

/-- A Starlark value: a string, a list, or a value of another type. -/
inductive Value where
  | str (s : Str)
  | list (content : List Value)
  | other (type : Str)

def Value.getType : Value → Str
  | str _ => "string"
  | list _ => "list"
  | other type => type

def Value.unpackStr : Value → Option Str
  | str s => some s
  | _ => none

/-- `Decision::parse`. -/
def parseDecision (raw : Str) : Except Error Decision :=
  if raw = "allow".toList then .ok .allow
  else if raw = "prompt".toList then .ok .prompt
  else if raw = "forbidden".toList then .ok .forbidden
  else .error (.invalidDecision raw)

/-! ## Patterns and examples -/

/-- An alternative must be a string. -/
def parseAlternative (value : Value) : Except Error Str :=
  match value.unpackStr with
  | some s => .ok s
  | none => .error (.invalidPattern
      (("pattern alternative must be a string (got " : Str) ++ value.getType ++ (")" : Str)))

def parsePatternToken : Value → Except Error PatternToken
  | .str s => .ok (.single s)
  | .list content => do
    match ← content.mapM parseAlternative with
    | [] => .error (.invalidPattern "pattern alternatives cannot be empty")
    | [single] => .ok (.single single)
    | tokens => .ok (.alts tokens)
  | .other type => .error (.invalidPattern
      (("pattern element must be a string or list of strings (got " : Str) ++ type ++
        (")" : Str)))

def parsePattern (pattern : List Value) : Except Error (List PatternToken) := do
  match ← pattern.mapM parsePatternToken with
  | [] => .error (.invalidPattern "pattern cannot be empty")
  | tokens => .ok tokens

def parseExampleToken (value : Value) : Except Error Str :=
  match value.unpackStr with
  | some s => .ok s
  | none => .error (.invalidExample
      (("example tokens must be strings (got " : Str) ++ value.getType ++ (")" : Str)))

def parseListExample (content : List Value) : Except Error (List Str) := do
  match ← content.mapM parseExampleToken with
  | [] => .error (.invalidExample "example cannot be an empty list")
  | tokens => .ok tokens

/-- The shell lexer: `shlex::split`, and `shlex::try_join`, which fails on a nul byte. -/
structure Shlex where
  split : Str → Option (List Str)
  tryJoin : List Str → Option Str

def parseStringExample (shlex : Shlex) (raw : Str) : Except Error (List Str) :=
  match shlex.split raw with
  | none => .error (.invalidExample "example string has invalid shell syntax")
  | some [] => .error (.invalidExample "example cannot be an empty string")
  | some tokens => .ok tokens

def parseExample (shlex : Shlex) : Value → Except Error (List Str)
  | .str raw => parseStringExample shlex raw
  | .list content => parseListExample content
  | .other type => .error (.invalidExample
      (("example must be a string or list of strings (got " : Str) ++ type ++ (")" : Str)))

def parseExamples (shlex : Shlex) : Option (List Value) → Except Error (List (List Str))
  | some examples => examples.mapM (parseExample shlex)
  | none => .ok []

def renderExample (shlex : Shlex) (ex : List Str) : Str :=
  (shlex.tryJoin ex).getD "unable to render example"

def validateMatchExamples (shlex : Shlex) (rules : List PrefixRule) (examples : List (List Str)) :
    Except Error Unit :=
  let unmatchedExamples := examples.filter fun ex => !rules.any fun r => (r.matches ex).isSome
  if unmatchedExamples.isEmpty then .ok ()
  else .error (.exampleDidNotMatch rules (unmatchedExamples.map (renderExample shlex)))

def validateNotMatchExamples (shlex : Shlex) (rules : List PrefixRule) :
    List (List Str) → Except Error Unit
  | [] => .ok ()
  | ex :: examples =>
    match rules.find? fun r => (r.matches ex).isSome with
    | some rule => .error (.exampleDidMatch rule (renderExample shlex ex))
    | none => validateNotMatchExamples shlex rules examples

/-! ## The builtin -/

/-- The arguments of a `prefix_rule` call. -/
structure PrefixRuleCall where
  pattern : List Value
  decision : Option Str
  match_ : Option (List Value)
  notMatch : Option (List Value)
  justification : Option Str

/-- The decision argument, `allow` by default. -/
def PrefixRuleCall.parsedDecision (call : PrefixRuleCall) : Except Error Decision :=
  match call.decision with
  | some raw => parseDecision raw
  | none => .ok .allow

def PrefixRuleCall.parsedJustification (call : PrefixRuleCall) : Except Error (Option Str) :=
  match call.justification with
  | some raw =>
    if (Str.trim raw).isEmpty then .error (.invalidRule "justification cannot be empty")
    else .ok (some raw)
  | none => .ok none

end Parser

def PatternToken.alternatives : PatternToken → List Str
  | single expected => [expected]
  | alts alternatives => alternatives

namespace Parser

/-- One rule for each alternative of the first token. -/
def expandHead (decision : Decision) (justification : Option Str) (firstToken : PatternToken)
    (rest : List PatternToken) : List PrefixRule :=
  firstToken.alternatives.map fun head => ⟨⟨head, rest⟩, decision, justification⟩

/-- The rules that `prefix_rule` adds, in order. -/
def prefixRule (shlex : Shlex) (call : PrefixRuleCall) : Except Error (List PrefixRule) := do
  let decision ← call.parsedDecision
  let justification ← call.parsedJustification
  let patternTokens ← parsePattern call.pattern
  let matchExamples ← parseExamples shlex call.match_
  let notMatchExamples ← parseExamples shlex call.notMatch
  match patternTokens with
  | [] => .error (.invalidPattern "pattern cannot be empty")
  | firstToken :: rest => do
    let rules := expandHead decision justification firstToken rest
    validateNotMatchExamples shlex rules notMatchExamples
    validateMatchExamples shlex rules matchExamples
    return rules

end Parser

/-! ## Building a policy -/

/-- `PolicyBuilder::add_rule`: the builder keeps what the policy keeps. -/
def Policy.addRule (p : Policy) (rule : PrefixRule) : Policy := p.insert rule.pattern.first rule

/-- The two ways to add rules. -/
inductive Addition where
  | prefixRule (call : Parser.PrefixRuleCall)
  | addPrefixRule (tokens : List Str) (decision : Decision)

/-- The rules an addition adds; none when it returns an error. -/
def Addition.rules (shlex : Parser.Shlex) : Addition → List PrefixRule
  | prefixRule call => (Parser.prefixRule shlex call).toOption.getD []
  | addPrefixRule [] _ => []
  | addPrefixRule (first :: rest) decision => [Policy.prefixRule first rest decision]

def Policy.add (shlex : Parser.Shlex) (p : Policy) : Addition → Policy
  | .prefixRule call =>
    match Parser.prefixRule shlex call with
    | .ok rules => rules.foldl addRule p
    | .error _ => p
  | .addPrefixRule tokens decision =>
    match p.addPrefixRule tokens decision with
    | .ok p' => p'
    | .error _ => p

/-- The policy that additions to the empty one build. -/
def Policy.build (shlex : Parser.Shlex) (additions : List Addition) : Policy :=
  additions.foldl (Policy.add shlex) empty

/-! ## Declarations -/

/-- A rule as it is declared: the alternatives of every token, the first one too. -/
structure Declared where
  alternatives : List (List Str)
  decision : Decision
  deriving DecidableEq

/-- Every position of the declaration has the command's token there among its
alternatives. -/
def Declared.Covers (r : Declared) (cmd : List Str) : Prop :=
  ∀ (i : Nat) (h : i < r.alternatives.length), ∃ token ∈ cmd[i]?, token ∈ r.alternatives[i]

instance (r : Declared) (cmd : List Str) : Decidable (r.Covers cmd) :=
  inferInstanceAs (Decidable (∀ (i : Nat) (h : i < r.alternatives.length),
    ∃ token ∈ cmd[i]?, token ∈ r.alternatives[i]))

/-- The tokens a pattern element stands for. -/
def Parser.Value.alternatives : Parser.Value → List Str
  | .str s => [s]
  | .list content => content.filterMap unpackStr
  | .other _ => []

/-- What an addition declares; a call that returns an error declares nothing. -/
def Addition.declared (shlex : Parser.Shlex) : Addition → Option Declared
  | prefixRule call =>
    match Parser.prefixRule shlex call, call.parsedDecision with
    | .ok _, .ok decision => some ⟨call.pattern.map Parser.Value.alternatives, decision⟩
    | _, _ => none
  | addPrefixRule [] _ => none
  | addPrefixRule tokens decision => some ⟨tokens.map ([·]), decision⟩

/-- The strictest decision of the declarations that cover a command, or the fallback. -/
def declaredDecision (rules : List Declared) (fallback : List Str → Decision) (cmd : List Str) :
    Decision :=
  strictest (fallback cmd) ((rules.filter fun r => r.Covers cmd).map Declared.decision)

/-! ## Covering a command -/

variable {shlex : Parser.Shlex} {p : Policy} {a : Addition} {cmd : List Str} {d : Decision}

@[simp] theorem covers_nil : Declared.Covers ⟨[], d⟩ cmd := fun i h => absurd h (Nat.not_lt_zero i)

@[simp] theorem not_covers_cons_nil {alts : List Str} {rest : List (List Str)} :
    ¬ Declared.Covers ⟨alts :: rest, d⟩ [] := by
  intro h
  obtain ⟨token, htoken, -⟩ := h 0 (Nat.zero_lt_succ _)
  simp at htoken

@[simp] theorem covers_cons_cons {alts : List Str} {rest : List (List Str)} {token : Str}
    {args : List Str} : Declared.Covers ⟨alts :: rest, d⟩ (token :: args) ↔
      token ∈ alts ∧ Declared.Covers ⟨rest, d⟩ args := by
  constructor
  · intro h
    refine ⟨?_, fun i hi => ?_⟩
    · simpa using h 0 (Nat.zero_lt_succ _)
    · simpa using h (i + 1) (Nat.succ_lt_succ hi)
  · rintro ⟨hhead, hrest⟩ i hi
    cases i with
    | zero => simpa using hhead
    | succ i => simpa using hrest i (Nat.lt_of_succ_lt_succ hi)

theorem PatternToken.matches_iff {pat : PatternToken} {token : Str} :
    pat.matches token = true ↔ token ∈ pat.alternatives := by
  cases pat with
  | single expected => simp [PatternToken.matches, PatternToken.alternatives, eq_comm]
  | alts alternatives => simp [PatternToken.matches, PatternToken.alternatives]

/-- The loop over the rest of a pattern, on arguments that are long enough. -/
theorem covers_iff_all {rest : List PatternToken} {args : List Str} :
    Declared.Covers ⟨rest.map PatternToken.alternatives, d⟩ args ↔
      rest.length ≤ args.length ∧
        (rest.zip args).all (fun x => x.1.matches x.2) = true := by
  induction rest generalizing args with
  | nil => simp
  | cons pat rest ih =>
    cases args with
    | nil => simp
    | cons tok args =>
      simp only [List.map_cons, covers_cons_cons, ih, List.length_cons, List.zip_cons_cons,
        List.all_cons, Bool.and_eq_true, PatternToken.matches_iff, Nat.add_le_add_iff_right]
      exact and_left_comm

theorem isSome_matches_iff {first : Str} {rest : List PatternToken} {j : Option Str} :
    ((⟨⟨first, rest⟩, d, j⟩ : PrefixRule).matches cmd).isSome = true ↔
      Declared.Covers ⟨[first] :: rest.map PatternToken.alternatives, d⟩ cmd := by
  rw [PrefixRule.matches, Option.isSome_map]
  cases cmd with
  | nil => simp [PrefixPattern.matchesPrefix]
  | cons token args =>
    rw [covers_cons_cons, covers_iff_all, List.mem_singleton]
    by_cases hfirst : token = first
    · by_cases hlen : rest.length ≤ args.length
      · have hlt : ¬ args.length < rest.length := Nat.not_lt.2 hlen
        cases hall : (rest.zip args).all fun x => x.1.matches x.2 with
        | true => simp [PrefixPattern.matchesPrefix, hfirst, hlen, hlt, hall]
        | false => simp [PrefixPattern.matchesPrefix, hfirst, hlt, hall]
      · simp [PrefixPattern.matchesPrefix, hfirst, hlen]
    · simp [PrefixPattern.matchesPrefix, hfirst]

theorem decision_of_matches {r : PrefixRule} {m : RuleMatch} (h : r.matches cmd = some m) :
    m.decision = r.decision := by
  obtain ⟨pre, -, rfl⟩ := Option.map_eq_some_iff.1 h
  rfl

/-! ## What an accepted call adds -/

namespace Parser

variable {call : PrefixRuleCall} {rules : List PrefixRule}

theorem alternatives_of_parseAlternative {v : Value} {s : Str} (h : parseAlternative v = .ok s) :
    v.unpackStr = some s := by
  unfold parseAlternative at h
  split at h
  · cases h
    assumption
  · cases h

theorem filterMap_of_mapM_parseAlternative {content : List Value} {tokens : List Str}
    (h : content.mapM parseAlternative = .ok tokens) :
    content.filterMap Value.unpackStr = tokens := by
  induction content generalizing tokens with
  | nil =>
    cases h
    rfl
  | cons v content ih =>
    rw [List.mapM_cons] at h
    obtain ⟨s, hs, h⟩ := Result.exists_of_bind_eq_ok h
    obtain ⟨ss, hss, h⟩ := Result.exists_of_bind_eq_ok h
    cases h
    rw [List.filterMap_cons_some (alternatives_of_parseAlternative hs), ih hss]

/-- A parsed token stands for the strings of its value, a list of one too. -/
theorem alternatives_of_parsePatternToken {v : Value} {t : PatternToken}
    (h : parsePatternToken v = .ok t) : t.alternatives = v.alternatives := by
  cases v with
  | str s =>
    cases h
    rfl
  | other type => cases h
  | list content =>
    obtain ⟨tokens, htokens, h⟩ := Result.exists_of_bind_eq_ok h
    rw [Value.alternatives, filterMap_of_mapM_parseAlternative htokens]
    cases tokens with
    | nil => cases h
    | cons s tokens =>
      cases tokens with
      | nil =>
        cases h
        rfl
      | cons s' tokens =>
        cases h
        rfl

theorem map_alternatives_of_mapM {vs : List Value} {ts : List PatternToken}
    (h : vs.mapM parsePatternToken = .ok ts) :
    ts.map PatternToken.alternatives = vs.map Value.alternatives := by
  induction vs generalizing ts with
  | nil =>
    cases h
    rfl
  | cons v vs ih =>
    rw [List.mapM_cons] at h
    obtain ⟨t, ht, h⟩ := Result.exists_of_bind_eq_ok h
    obtain ⟨ts', hts, h⟩ := Result.exists_of_bind_eq_ok h
    cases h
    rw [List.map_cons, List.map_cons, alternatives_of_parsePatternToken ht, ih hts]

theorem map_alternatives_of_parsePattern {vs : List Value} {ts : List PatternToken}
    (h : parsePattern vs = .ok ts) :
    ts.map PatternToken.alternatives = vs.map Value.alternatives := by
  obtain ⟨tokens, htokens, h⟩ := Result.exists_of_bind_eq_ok h
  rw [← map_alternatives_of_mapM htokens]
  cases tokens with
  | nil => cases h
  | cons t tokens =>
    cases h
    rfl

theorem prefixRule_eq_ok (h : prefixRule shlex call = .ok rules) :
    ∃ decision justification firstToken rest, call.parsedDecision = .ok decision ∧
      parsePattern call.pattern = .ok (firstToken :: rest) ∧
      rules = expandHead decision justification firstToken rest := by
  obtain ⟨decision, hdecision, h⟩ := Result.exists_of_bind_eq_ok h
  obtain ⟨justification, -, h⟩ := Result.exists_of_bind_eq_ok h
  obtain ⟨patternTokens, hpattern, h⟩ := Result.exists_of_bind_eq_ok h
  obtain ⟨matchExamples, -, h⟩ := Result.exists_of_bind_eq_ok h
  obtain ⟨notMatchExamples, -, h⟩ := Result.exists_of_bind_eq_ok h
  cases patternTokens with
  | nil => cases h
  | cons firstToken rest =>
    obtain ⟨_, -, h⟩ := Result.exists_of_bind_eq_ok h
    obtain ⟨_, -, h⟩ := Result.exists_of_bind_eq_ok h
    cases h
    exact ⟨decision, justification, firstToken, rest, hdecision, hpattern, rfl⟩

theorem mem_expandHead_matches {d' : Decision} {j : Option Str} {firstToken : PatternToken}
    {rest : List PatternToken} :
    (∃ r ∈ expandHead d j firstToken rest, (r.matches cmd).isSome = true ∧ r.decision = d') ↔
      Declared.Covers ⟨(firstToken :: rest).map PatternToken.alternatives, d⟩ cmd ∧ d = d' := by
  simp only [expandHead, List.mem_map, exists_exists_and_eq_and, isSome_matches_iff]
  cases cmd with
  | nil => simp
  | cons token args =>
    simp only [covers_cons_cons, List.mem_singleton, List.map_cons]
    constructor
    · rintro ⟨head, hmem, ⟨rfl, hrest⟩, hd⟩
      exact ⟨⟨hmem, hrest⟩, hd⟩
    · rintro ⟨⟨hmem, hrest⟩, hd⟩
      exact ⟨token, hmem, ⟨rfl, hrest⟩, hd⟩

end Parser

/-! ## What a policy decides -/

namespace Policy

/-- The decisions of the rules that match a command. -/
def decisions (p : Policy) (cmd : List Str) : List Decision :=
  (p.ruleMatches cmd).map RuleMatch.decision

theorem strictest_matchesForCommand (fallback : List Str → Decision) :
    strictest (fallback cmd) ((p.matchesForCommand cmd fallback).map RuleMatch.decision) =
      strictest (fallback cmd) (p.decisions cmd) := by
  by_cases h : p.ruleMatches cmd = []
  · rw [matchesForCommand_of_nil h, decisions, h]
    rfl
  · rw [matchesForCommand_of_ne_nil h, decisions]

/-- The decision about several commands is the strictest of what each meets. -/
theorem decision_checkMultiple (p : Policy) (commands : List (List Str))
    (fallback : List Str → Decision) :
    (p.checkMultiple commands fallback).map Evaluation.decision =
      (commands.map fun cmd => strictest (fallback cmd) (p.decisions cmd)).max? := by
  rw [checkMultiple, Evaluation.fromMatches, Option.map_map, List.map_flatMap]
  have hmap : (Evaluation.decision ∘ fun decision => (⟨decision, commands.flatMap fun command =>
      p.matchesForCommand command fallback⟩ : Evaluation)) = id := rfl
  rw [hmap, Option.map_id, id, max?_flatMap fallback]
  · simp only [strictest_matchesForCommand]
  · intro cmd _ hnil
    exact matchesForCommand_ne_nil (List.map_eq_nil_iff.1 hnil)

/-- A rule comes after those that matched before, under whatever program. -/
theorem ruleMatches_addRule (rule : PrefixRule) :
    (p.addRule rule).ruleMatches cmd = p.ruleMatches cmd ++ (rule.matches cmd).toList := by
  cases cmd with
  | nil => rfl
  | cons first args =>
    rw [ruleMatches, ruleMatches, addRule]
    by_cases h : first = rule.pattern.first
    · rw [h, rulesFor_insert, List.filterMap_append]
      cases hm : rule.matches (rule.pattern.first :: args) with
      | none => simp [hm]
      | some m => simp [hm]
    · rw [rulesFor_insert_of_ne rule h]
      simp [PrefixRule.matches, PrefixPattern.matchesPrefix, h]

theorem ruleMatches_foldl_addRule {rules : List PrefixRule} :
    (rules.foldl addRule p).ruleMatches cmd =
      p.ruleMatches cmd ++ rules.filterMap (·.matches cmd) := by
  induction rules generalizing p with
  | nil => simp
  | cons rule rules ih =>
    rw [List.foldl_cons, ih, ruleMatches_addRule, List.append_assoc]
    cases h : rule.matches cmd with
    | none => simp [h]
    | some m => simp [h]

theorem add_eq_foldl (a : Addition) : p.add shlex a = (a.rules shlex).foldl addRule p := by
  cases a with
  | prefixRule call =>
    rw [add, Addition.rules]
    cases Parser.prefixRule shlex call with
    | error e => rfl
    | ok rules => rfl
  | addPrefixRule tokens decision =>
    cases tokens with
    | nil => rfl
    | cons first rest => rfl

end Policy

/-- The added rules that match a command are those of a declaration that covers it. -/
theorem mem_rules_matches : (∃ r ∈ a.rules shlex, (r.matches cmd).isSome = true ∧ r.decision = d) ↔
    ∃ r, a.declared shlex = some r ∧ r.Covers cmd ∧ r.decision = d := by
  cases a with
  | prefixRule call =>
    rw [Addition.rules, Addition.declared]
    cases h : Parser.prefixRule shlex call with
    | error e => simp [Except.toOption]
    | ok rules =>
      obtain ⟨decision, j, firstToken, rest, hd, hpattern, rfl⟩ := Parser.prefixRule_eq_ok h
      rw [hd, Except.toOption, Option.getD_some, Parser.mem_expandHead_matches,
        Parser.map_alternatives_of_parsePattern hpattern]
      simp
  | addPrefixRule tokens decision =>
    cases tokens with
    | nil => simp [Addition.rules, Addition.declared]
    | cons first rest =>
      have hmap : (rest.map PatternToken.single).map PatternToken.alternatives =
          rest.map fun x => [x] := by
        rw [List.map_map]
        rfl
      simp [Addition.rules, Addition.declared, Policy.prefixRule, isSome_matches_iff, hmap]

namespace Policy

theorem mem_decisions_add : d ∈ (p.add shlex a).decisions cmd ↔
    d ∈ p.decisions cmd ∨ ∃ r, a.declared shlex = some r ∧ r.Covers cmd ∧ r.decision = d := by
  rw [← mem_rules_matches, add_eq_foldl, decisions, decisions, ruleMatches_foldl_addRule,
    List.map_append, List.mem_append]
  refine or_congr_right ?_
  simp only [List.mem_map, List.mem_filterMap]
  constructor
  · rintro ⟨m, ⟨r, hr, hm⟩, rfl⟩
    exact ⟨r, hr, by rw [hm]; rfl, (decision_of_matches hm).symm⟩
  · rintro ⟨r, hr, hsome, rfl⟩
    obtain ⟨m, hm⟩ := Option.isSome_iff_exists.1 hsome
    exact ⟨m, ⟨r, hr, hm⟩, decision_of_matches hm⟩

theorem mem_decisions_foldl_add {additions : List Addition} :
    d ∈ (additions.foldl (Policy.add shlex) p).decisions cmd ↔ d ∈ p.decisions cmd ∨
      ∃ r ∈ additions.filterMap (Addition.declared shlex), r.Covers cmd ∧ r.decision = d := by
  induction additions generalizing p with
  | nil => simp
  | cons a additions ih =>
    rw [List.foldl_cons, ih, mem_decisions_add, or_assoc]
    refine or_congr_right ?_
    cases h : a.declared shlex with
    | none => simp [h]
    | some r => simp [h]

theorem decisions_empty : empty.decisions cmd = [] := by
  cases cmd with
  | nil => rfl
  | cons first args => rfl

theorem mem_decisions_build {additions : List Addition} :
    d ∈ (build shlex additions).decisions cmd ↔
      ∃ r ∈ additions.filterMap (Addition.declared shlex), r.Covers cmd ∧ r.decision = d := by
  rw [build, mem_decisions_foldl_add, decisions_empty]
  simp

/-- A policy built by any calls in any order decides by its declarations: each command
by the strictest that covers it or the fallback, and all of them by the strictest. -/
theorem decision_build (shlex : Parser.Shlex) (additions : List Addition)
    (commands : List (List Str)) (fallback : List Str → Decision) :
    ((build shlex additions).checkMultiple commands fallback).map Evaluation.decision =
      (commands.map (declaredDecision (additions.filterMap (Addition.declared shlex))
        fallback)).max? := by
  rw [decision_checkMultiple]
  congr 1
  refine List.map_congr_left fun cmd _ => strictest_eq_of_mem_iff fun d => ?_
  rw [mem_decisions_build]
  simp [and_assoc]

/-- `prefix_rule(pattern = ["ls", ["-l", "-a"]], decision = "prompt")`. -/
example :
    let call : Parser.PrefixRuleCall :=
      ⟨[.str "ls", .list [.str "-l", .str "-a"]], some "prompt", none, none, none⟩
    ((build ⟨fun _ => none, fun _ => none⟩ [.prefixRule call]).checkMultiple
      [["ls"], ["ls", "-a", "x"]] fun _ => .allow).map Evaluation.decision = some .prompt := by
  decide

/-- The order of the calls does not matter. -/
theorem decision_build_of_perm {additions additions' : List Addition}
    (h : additions.Perm additions') (commands : List (List Str))
    (fallback : List Str → Decision) :
    ((build shlex additions).checkMultiple commands fallback).map Evaluation.decision =
      ((build shlex additions').checkMultiple commands fallback).map Evaluation.decision := by
  rw [decision_checkMultiple, decision_checkMultiple]
  congr 1
  refine List.map_congr_left fun cmd _ => strictest_eq_of_mem_iff fun d => ?_
  rw [mem_decisions_build, mem_decisions_build]
  simp only [(h.filterMap _).mem_iff]

/-- Two rules for one program. -/
theorem decision_build_swap :
    ((build ⟨fun _ => none, fun _ => none⟩ [.addPrefixRule ["ls"] .allow,
      .addPrefixRule ["ls", "-l"] .prompt]).checkMultiple [["ls", "-l"]] fun _ => .allow).map
        Evaluation.decision =
      ((build ⟨fun _ => none, fun _ => none⟩ [.addPrefixRule ["ls", "-l"] .prompt,
        .addPrefixRule ["ls"] .allow]).checkMultiple [["ls", "-l"]] fun _ => .allow).map
        Evaluation.decision :=
  decision_build_of_perm (.swap ..) _ _

end Policy

end SheriMl.ExecPolicy
