import SheriMl.Lib.Lines
import SheriMl.Lib.Numeral
import SheriMl.Lib.Result

/-!
# Matching positional arguments with patterns

`execpolicy-legacy/src/arg_resolver.rs`: the patterns before the variable-length one are matched
with the first arguments, those behind it with the last ones, and it with what is between.
`resolve_eq_ok_iff` says that this finds just the way to split the arguments among the patterns in
their order (`Fits`), and `ends_resolve` that no slice is out of range.
-/

namespace SheriMl.ExecPolicyLegacy

open List

open Checked (Stop lift)

inductive ArgType where
  | literal (value : Str)
  | opaqueNonFile
  | readableFile
  | writeableFile
  | positiveInteger
  | sedCommand
  | unknown
  deriving DecidableEq

inductive ArgMatcher where
  | literal (value : Str)
  | opaqueNonFile
  | readableFile
  | writeableFile
  | readableFiles
  | readableFilesOrCwd
  | positiveInteger
  | sedCommand
  | unverifiedVarargs
  deriving DecidableEq

inductive ArgMatcherCardinality where
  | one
  | atLeastOne
  | zeroOrMore
  deriving DecidableEq

structure PositionalArg where
  index : Nat
  value : Str
  deriving DecidableEq

structure MatchedArg where
  index : Nat
  type : ArgType
  value : Str
  deriving DecidableEq

inductive Error where
  | optionMissingValue (program option : Str)
  | optionFollowedByOptionInsteadOfValue (program option value : Str)
  | unknownOption (program option : Str)
  | unexpectedArguments (program : Str) (args : List PositionalArg)
  | doubleDashNotSupportedYet (program : Str)
  | multipleVarargPatterns (program : Str) (first second : ArgMatcher)
  | rangeStartExceedsEnd (start last : Nat)
  | rangeEndOutOfBounds (last len : Nat)
  | prefixOverlapsSuffix
  | notEnoughArgs (program : Str) (args : List PositionalArg) (argPatterns : List ArgMatcher)
  | internalInvariantViolation (message : Str)
  | varargMatcherDidNotMatchAnything (program : Str) (pattern : ArgMatcher)
  | emptyFileName
  | literalValueDidNotMatch (expected actual : Str)
  | invalidPositiveInteger (value : Str)
  | missingRequiredOptions (program : Str) (options : List Str)
  | sedCommandNotProvablySafe (command : Str)
  deriving DecidableEq

/-! ## Types of arguments -/

namespace ArgMatcher

def cardinality : ArgMatcher → ArgMatcherCardinality
  | .literal _ | .opaqueNonFile | .readableFile | .writeableFile | .positiveInteger | .sedCommand =>
    .one
  | .readableFiles => .atLeastOne
  | .readableFilesOrCwd | .unverifiedVarargs => .zeroOrMore

def argType : ArgMatcher → ArgType
  | .literal value => .literal value
  | .opaqueNonFile => .opaqueNonFile
  | .readableFile => .readableFile
  | .writeableFile => .writeableFile
  | .readableFiles => .readableFile
  | .readableFilesOrCwd => .readableFile
  | .positiveInteger => .positiveInteger
  | .sedCommand => .sedCommand
  | .unverifiedVarargs => .unknown

end ArgMatcher

def ArgMatcherCardinality.isExact : ArgMatcherCardinality → Option Nat
  | .one => some 1
  | .atLeastOne => none
  | .zeroOrMore => none

/-- `str::parse::<u64>` -/
def parseU64 (s : Str) : Option Nat :=
  let digits := (Str.stripPrefix s "+").getD s
  if digits.isEmpty then none else (Numeral.read 10 digits).filter fun n => n < 2 ^ 64

/-- Only commands like `122,202p`. -/
def parseSedCommand (sedCommand : Str) : Except Error Unit :=
  match (Str.stripSuffix sedCommand "p").bind (Str.splitOnce ',') with
  | some (first, rest) =>
    if (parseU64 first).isSome ∧ (parseU64 rest).isSome then .ok ()
    else .error (.sedCommandNotProvablySafe sedCommand)
  | none => .error (.sedCommandNotProvablySafe sedCommand)

def ArgType.validate (type : ArgType) (value : Str) : Except Error Unit :=
  match type with
  | .literal literalValue =>
    if value ≠ literalValue then .error (.literalValueDidNotMatch literalValue value) else .ok ()
  | .readableFile => if value.isEmpty then .error .emptyFileName else .ok ()
  | .writeableFile => if value.isEmpty then .error .emptyFileName else .ok ()
  | .opaqueNonFile | .unknown => .ok ()
  | .positiveInteger =>
    match parseU64 value with
    | some 0 => .error (.invalidPositiveInteger value)
    | some _ => .ok ()
    | none => .error (.invalidPositiveInteger value)
  | .sedCommand => parseSedCommand value

def MatchedArg.new (index : Nat) (type : ArgType) (value : Str) : Except Error MatchedArg :=
  (type.validate value).map fun _ => ⟨index, type, value⟩

/-! ## The resolver -/

structure PartitionedArgs where
  numPrefixArgs : Nat
  numSuffixArgs : Nat
  prefixPatterns : List ArgMatcher
  suffixPatterns : List ArgMatcher
  varargPattern : Option ArgMatcher

/-- The loop over the patterns; those up to the variable-length one are in the prefix. -/
def partitionLoop (program : Str) :
    Bool → PartitionedArgs → List ArgMatcher → Except Error PartitionedArgs
  | _, p, [] => .ok p
  | inPrefix, p, pattern :: patterns =>
    match pattern.cardinality.isExact with
    | some n =>
      if inPrefix then
        partitionLoop program true
          { p with
            prefixPatterns := p.prefixPatterns ++ [pattern]
            numPrefixArgs := p.numPrefixArgs + n } patterns
      else
        partitionLoop program false
          { p with
            suffixPatterns := p.suffixPatterns ++ [pattern]
            numSuffixArgs := p.numSuffixArgs + n } patterns
    | none =>
      match p.varargPattern with
      | none => partitionLoop program false { p with varargPattern := some pattern } patterns
      | some existingPattern =>
        .error (.multipleVarargPatterns program existingPattern pattern)

def PartitionedArgs.default : PartitionedArgs := ⟨0, 0, [], [], none⟩

def partitionArgs (program : Str) (argPatterns : List ArgMatcher) : Except Error PartitionedArgs :=
  partitionLoop program true .default argPatterns

def getRangeChecked {α : Type} (vec : List α) (start last : Nat) : Except (Stop Error) (List α) :=
  if last < start then .error (.fails (.rangeStartExceedsEnd start last))
  else if vec.length < last then .error (.fails (.rangeEndOutOfBounds last vec.length))
  else Checked.sliceRange vec start last

def matchAll (pattern : ArgMatcher) (args : List PositionalArg) :
    Except Error (List MatchedArg) :=
  args.mapM fun arg => MatchedArg.new arg.index pattern.argType arg.value

/-- The loop over the patterns before or behind the variable-length one, and the index where it
ends. -/
def matchExact (args : List PositionalArg) :
    Nat → List ArgMatcher → Except (Stop Error) (List MatchedArg × Nat)
  | argIndex, [] => .ok ([], argIndex)
  | argIndex, pattern :: patterns =>
    match pattern.cardinality.isExact with
    | none => .error (.fails (.internalInvariantViolation "expected exact cardinality"))
    | some n => do
      let slice ← Checked.sliceRange args argIndex (argIndex + n)
      let matched ← lift (matchAll pattern slice)
      let rest ← matchExact args (argIndex + n) patterns
      .ok (matched ++ rest.1, rest.2)

def matchVararg (program : Str) (pattern : ArgMatcher) (vararg : List PositionalArg) :
    Except Error (List MatchedArg) :=
  match pattern.cardinality with
  | .one =>
    .error (.internalInvariantViolation "vararg pattern should not have cardinality of one")
  | .atLeastOne =>
    if vararg.isEmpty then .error (.varargMatcherDidNotMatchAnything program pattern)
    else matchAll pattern vararg
  | .zeroOrMore => matchAll pattern vararg

/-- The block for the variable-length pattern. -/
def resolveVararg (program : Str) (args : List PositionalArg) (start last : Nat)
    (varargPattern : Option ArgMatcher) : Except (Stop Error) (List MatchedArg) :=
  match varargPattern with
  | none => .ok []
  | some pattern => do
    let vararg ← getRangeChecked args start last
    lift (matchVararg program pattern vararg)

/-- What is left over of the arguments. -/
def checkExtra (program : Str) (args : List PositionalArg) (matchedArgs : List MatchedArg) :
    Except (Stop Error) (List MatchedArg) :=
  if matchedArgs.length < args.length then do
    let extraArgs ← getRangeChecked args matchedArgs.length args.length
    .error (.fails (.unexpectedArguments program extraArgs))
  else .ok matchedArgs

def resolveObservedArgsWithPatterns (program : Str) (args : List PositionalArg)
    (argPatterns : List ArgMatcher) : Except (Stop Error) (List MatchedArg) := do
  let p ← lift (partitionArgs program argPatterns)
  let leading ← getRangeChecked args 0 p.numPrefixArgs
  let (matchedPrefix, prefixArgIndex) ← matchExact leading 0 p.prefixPatterns
  if args.length < p.numSuffixArgs then
    .error (.fails (.notEnoughArgs program args argPatterns))
  else
    let initialSuffixArgsIndex := args.length - p.numSuffixArgs
    if initialSuffixArgsIndex < prefixArgIndex then .error (.fails .prefixOverlapsSuffix)
    else
      let matchedVararg ←
        resolveVararg program args prefixArgIndex initialSuffixArgsIndex p.varargPattern
      let suffix ← getRangeChecked args initialSuffixArgsIndex args.length
      let (matchedSuffix, _) ← matchExact suffix 0 p.suffixPatterns
      checkExtra program args (matchedPrefix ++ matchedVararg ++ matchedSuffix)

/-! ## Splitting the arguments -/

namespace ArgMatcher

def Takes (pattern : ArgMatcher) (group : List PositionalArg) : Prop :=
  match pattern.cardinality with
  | .one => group.length = 1
  | .atLeastOne => group ≠ []
  | .zeroOrMore => True

def Admits (pattern : ArgMatcher) (arg : PositionalArg) : Prop :=
  pattern.argType.validate arg.value = .ok ()

def matched (pattern : ArgMatcher) (arg : PositionalArg) : MatchedArg :=
  ⟨arg.index, pattern.argType, arg.value⟩

end ArgMatcher

/-- The arguments are split among the patterns in their order, and matched. -/
inductive Fits : List ArgMatcher → List PositionalArg → List MatchedArg → Prop
  | nil : Fits [] [] []
  | cons {pattern patterns group args matched} : pattern.Takes group →
      (∀ arg ∈ group, pattern.Admits arg) → Fits patterns args matched →
      Fits (pattern :: patterns) (group ++ args) (group.map pattern.matched ++ matched)

def AtMostOneVararg (patterns : List ArgMatcher) : Prop :=
  (patterns.filter fun pattern => pattern.cardinality ≠ .one).length ≤ 1

variable {program : Str} {pattern : ArgMatcher} {patterns : List ArgMatcher}
  {args : List PositionalArg} {matched : List MatchedArg} {p : PartitionedArgs}

theorem fits_append_iff {p q : List ArgMatcher} : Fits (p ++ q) args matched ↔
    ∃ a b m n, args = a ++ b ∧ matched = m ++ n ∧ Fits p a m ∧ Fits q b n := by
  constructor
  · intro h
    induction p generalizing args matched with
    | nil => exact ⟨[], args, [], matched, rfl, rfl, .nil, h⟩
    | cons pattern p ih =>
      cases h with
      | @cons _ _ group _ _ htakes hadmits hrest =>
        obtain ⟨a, b, m, n, rfl, rfl, hp, hq⟩ := ih hrest
        refine ⟨group ++ a, b, group.map pattern.matched ++ m, n, ?_, ?_, ?_, hq⟩
        · rw [append_assoc]
        · rw [append_assoc]
        · exact .cons htakes hadmits hp
  · rintro ⟨a, b, m, n, rfl, rfl, hp, hq⟩
    induction hp with
    | nil => exact hq
    | cons htakes hadmits _ ih =>
      rw [cons_append, append_assoc, append_assoc]
      exact .cons htakes hadmits ih

theorem fits_singleton_iff : Fits [pattern] args matched ↔
    pattern.Takes args ∧ (∀ arg ∈ args, pattern.Admits arg) ∧
      matched = args.map pattern.matched := by
  constructor
  · rintro ⟨⟩
    next group args matched htakes hadmits hrest =>
      cases hrest
      rw [append_nil, append_nil]
      exact ⟨htakes, hadmits, rfl⟩
  · rintro ⟨htakes, hadmits, rfl⟩
    have h := Fits.cons htakes hadmits .nil
    rwa [append_nil, append_nil] at h

/-- Patterns of one argument take as many as they are. -/
theorem Fits.length_eq (h : Fits patterns args matched)
    (hone : ∀ pattern ∈ patterns, pattern.cardinality = .one) : args.length = patterns.length := by
  induction h with
  | nil => rfl
  | @cons pattern patterns group args matched htakes _ _ ih =>
    rw [ArgMatcher.Takes, hone pattern mem_cons_self] at htakes
    rw [length_append, ih fun q hq => hone q (mem_cons_of_mem _ hq), length_cons,
      show group.length = 1 from htakes, Nat.add_comm]

theorem Fits.length_matched (h : Fits patterns args matched) : matched.length = args.length := by
  induction h with
  | nil => rfl
  | cons _ _ _ ih => rw [length_append, length_append, length_map, ih]

theorem isExact_eq_some {c : ArgMatcherCardinality} {n : Nat} :
    c.isExact = some n ↔ c = .one ∧ n = 1 := by
  cases c with
  | one => simp [ArgMatcherCardinality.isExact, eq_comm]
  | atLeastOne | zeroOrMore => simp [ArgMatcherCardinality.isExact]

/-! ## Ranges and loops -/

theorem getRangeChecked_eq_ok {α : Type} {vec s : List α} {start last : Nat} :
    getRangeChecked vec start last = .ok s ↔
      start ≤ last ∧ last ≤ vec.length ∧ s = (vec.take last).drop start := by
  rw [getRangeChecked]
  split
  next hlt => exact iff_of_false nofun fun h => Nat.not_le.2 hlt h.1
  next hle =>
    split
    next hlt => exact iff_of_false nofun fun h => Nat.not_le.2 hlt h.2.1
    next hlast =>
      rw [Checked.sliceRange_eq (Nat.not_lt.1 hle) (Nat.not_lt.1 hlast), Except.ok.injEq]
      constructor
      · rintro rfl
        exact ⟨Nat.not_lt.1 hle, Nat.not_lt.1 hlast, rfl⟩
      · rintro ⟨-, -, rfl⟩
        rfl

theorem ends_getRangeChecked {α : Type} (vec : List α) (start last : Nat) :
    Checked.Ends (getRangeChecked vec start last) := by
  rw [getRangeChecked]
  split
  · exact Checked.ends_fails _
  · split
    · exact Checked.ends_fails _
    · rw [Checked.sliceRange_eq (by omega) (by omega)]
      exact Checked.ends_ok _

theorem new_eq_ok_iff {arg : PositionalArg} {m : MatchedArg} :
    MatchedArg.new arg.index pattern.argType arg.value = .ok m ↔
      pattern.Admits arg ∧ m = pattern.matched arg := by
  rw [MatchedArg.new, ArgMatcher.Admits]
  cases pattern.argType.validate arg.value with
  | error e => exact iff_of_false nofun fun h => nomatch h.1
  | ok _ => simp [Except.map, ArgMatcher.matched, eq_comm]

theorem matchAll_eq_ok_iff : matchAll pattern args = .ok matched ↔
    (∀ arg ∈ args, pattern.Admits arg) ∧ matched = args.map pattern.matched := by
  induction args generalizing matched with
  | nil => simp [matchAll, pure, Except.pure, eq_comm]
  | cons arg args ih =>
    rw [matchAll, mapM_cons, Result.bind_eq_ok_iff, forall_mem_cons, map_cons]
    simp only [new_eq_ok_iff, Result.bind_eq_ok_iff]
    constructor
    · rintro ⟨m, ⟨hadmits, rfl⟩, ms, hms, hmatched⟩
      obtain ⟨hrest, rfl⟩ := ih.1 hms
      cases hmatched
      exact ⟨⟨hadmits, hrest⟩, rfl⟩
    · rintro ⟨⟨hadmits, hrest⟩, rfl⟩
      exact ⟨_, ⟨hadmits, rfl⟩, _, ih.2 ⟨hrest, rfl⟩, rfl⟩

/-- On as many arguments as patterns of one argument, the loop matches them one by one. -/
theorem matchExact_eq_ok_iff {i j : Nat} (hone : ∀ pattern ∈ patterns, pattern.cardinality = .one)
    (hlength : i + patterns.length = args.length) :
    matchExact args i patterns = .ok (matched, j) ↔
      j = args.length ∧ Fits patterns (args.drop i) matched := by
  induction patterns generalizing i matched with
  | nil =>
    rw [length_nil, Nat.add_zero] at hlength
    rw [drop_eq_nil_of_le (Nat.le_of_eq hlength.symm), matchExact, Except.ok.injEq,
      Prod.mk.injEq, ← hlength]
    constructor
    · rintro ⟨rfl, rfl⟩
      exact ⟨rfl, .nil⟩
    · rintro ⟨rfl, hfits⟩
      cases hfits
      exact ⟨rfl, rfl⟩
  | cons pattern patterns ih =>
    rw [length_cons] at hlength
    have hpattern := hone pattern mem_cons_self
    have hrest {n : List MatchedArg} : matchExact args (i + 1) patterns = .ok (n, j) ↔
        j = args.length ∧ Fits patterns (args.drop (i + 1)) n :=
      ih (fun q hq => hone q (mem_cons_of_mem _ hq)) (by omega)
    have hexact : pattern.cardinality.isExact = some 1 := isExact_eq_some.2 ⟨hpattern, rfl⟩
    obtain ⟨arg, harg⟩ : ∃ arg, (args.take (i + 1)).drop i = [arg] := by
      refine length_eq_one_iff.1 ?_
      rw [length_drop, length_take]
      omega
    have hdrop : args.drop i = [arg] ++ args.drop (i + 1) := by
      rw [← harg, ← drop_append_of_le_length (by rw [length_take]; omega),
        take_append_drop]
    rw [matchExact, hexact]
    dsimp only
    have hsplit : Fits (pattern :: patterns) (args.drop i) matched ↔ _ :=
      fits_append_iff (p := [pattern])
    rw [Checked.sliceRange_eq (Nat.le_succ i) (by omega), Result.ok_bind, harg, hsplit, hdrop]
    simp only [Result.bind_eq_ok_iff, Checked.lift_eq_ok, matchAll_eq_ok_iff, Except.ok.injEq,
      Prod.mk.injEq, fits_singleton_iff]
    constructor
    · rintro ⟨m, ⟨hadmits, rfl⟩, ⟨n, j'⟩, hn, rfl, rfl⟩
      obtain ⟨rfl, hfits⟩ := hrest.1 hn
      exact ⟨rfl, [arg], _, _, n, rfl, rfl, ⟨by rw [ArgMatcher.Takes, hpattern]; rfl, hadmits, rfl⟩,
        hfits⟩
    · rintro ⟨rfl, a, b, m, n, heq, rfl, ⟨htakes, hadmits, rfl⟩, hfits⟩
      rw [ArgMatcher.Takes, hpattern] at htakes
      obtain ⟨rfl, rfl⟩ := append_inj heq (Eq.symm htakes)
      exact ⟨_, ⟨hadmits, rfl⟩, (n, args.length), hrest.2 ⟨rfl, hfits⟩, rfl, rfl⟩

/-- Nor is a slice of the loop out of range. -/
theorem ends_matchExact {i : Nat} (hone : ∀ pattern ∈ patterns, pattern.cardinality = .one)
    (hlength : i + patterns.length ≤ args.length) :
    Checked.Ends (matchExact args i patterns) := by
  induction patterns generalizing i with
  | nil => exact Checked.ends_ok _
  | cons pattern patterns ih =>
    rw [length_cons] at hlength
    have hexact : pattern.cardinality.isExact = some 1 :=
      isExact_eq_some.2 ⟨hone pattern mem_cons_self, rfl⟩
    rw [matchExact, hexact]
    dsimp only
    rw [Checked.sliceRange_eq (Nat.le_succ i) (by omega), Result.ok_bind]
    refine (Checked.ends_lift _).bind fun m _ => ?_
    refine (ih (fun q hq => hone q (mem_cons_of_mem _ hq)) (by omega)).bind fun r _ => ?_
    exact Checked.ends_ok _

/-! ## The partition of the patterns -/

/-- The patterns before the variable-length one, it, and those behind it. -/
structure IsPartition (p : PartitionedArgs) (patterns : List ArgMatcher) : Prop where
  eq : patterns = p.prefixPatterns ++ p.varargPattern.toList ++ p.suffixPatterns
  prefixOne : ∀ pattern ∈ p.prefixPatterns, pattern.cardinality = .one
  suffixOne : ∀ pattern ∈ p.suffixPatterns, pattern.cardinality = .one
  vararg : ∀ pattern ∈ p.varargPattern, pattern.cardinality ≠ .one
  suffixNil : p.varargPattern = none → p.suffixPatterns = []
  numPrefixArgs : p.numPrefixArgs = p.prefixPatterns.length
  numSuffixArgs : p.numSuffixArgs = p.suffixPatterns.length

namespace IsPartition

theorem default : IsPartition .default [] where
  eq := rfl
  prefixOne := nofun
  suffixOne := nofun
  vararg := nofun
  suffixNil _ := rfl
  numPrefixArgs := rfl
  numSuffixArgs := rfl

theorem pushPrefix (h : IsPartition p patterns) (hvararg : p.varargPattern = none)
    (hone : pattern.cardinality = .one) :
    IsPartition
      { p with
        prefixPatterns := p.prefixPatterns ++ [pattern]
        numPrefixArgs := p.numPrefixArgs + 1 } (patterns ++ [pattern]) where
  eq := by
    rw [h.eq, hvararg, h.suffixNil hvararg]
    simp
  prefixOne := forall_mem_append.2 ⟨h.prefixOne, forall_mem_singleton.2 hone⟩
  suffixOne := h.suffixOne
  vararg := h.vararg
  suffixNil := h.suffixNil
  numPrefixArgs := by rw [length_append, ← h.numPrefixArgs, length_singleton]
  numSuffixArgs := h.numSuffixArgs

theorem pushSuffix {v : ArgMatcher} (h : IsPartition p patterns)
    (hvararg : p.varargPattern = some v) (hone : pattern.cardinality = .one) :
    IsPartition
      { p with
        suffixPatterns := p.suffixPatterns ++ [pattern]
        numSuffixArgs := p.numSuffixArgs + 1 } (patterns ++ [pattern]) where
  eq := by rw [h.eq, ← append_assoc]
  prefixOne := h.prefixOne
  suffixOne := forall_mem_append.2 ⟨h.suffixOne, forall_mem_singleton.2 hone⟩
  vararg := h.vararg
  suffixNil hnone := by
    rw [hvararg] at hnone
    cases hnone
  numPrefixArgs := h.numPrefixArgs
  numSuffixArgs := by rw [length_append, ← h.numSuffixArgs, length_singleton]

theorem setVararg (h : IsPartition p patterns) (hvararg : p.varargPattern = none)
    (hne : pattern.cardinality ≠ .one) :
    IsPartition { p with varargPattern := some pattern } (patterns ++ [pattern]) where
  eq := by
    rw [h.eq, hvararg, h.suffixNil hvararg]
    simp
  prefixOne := h.prefixOne
  suffixOne := h.suffixOne
  vararg q hq := by
    cases hq
    exact hne
  suffixNil := nofun
  numPrefixArgs := h.numPrefixArgs
  numSuffixArgs := h.numSuffixArgs

end IsPartition

theorem isPartition_of_partitionLoop {inPrefix : Bool} {acc : PartitionedArgs}
    {done : List ArgMatcher} (hacc : IsPartition acc done)
    (hin : inPrefix = acc.varargPattern.isNone)
    (h : partitionLoop program inPrefix acc patterns = .ok p) :
    IsPartition p (done ++ patterns) := by
  induction patterns generalizing inPrefix acc done with
  | nil =>
    cases h
    rwa [append_nil]
  | cons pattern patterns ih =>
    rw [append_cons]
    rw [partitionLoop] at h
    cases hexact : pattern.cardinality.isExact with
    | some n =>
      obtain ⟨hone, rfl⟩ := isExact_eq_some.1 hexact
      rw [hexact] at h
      cases hvararg : acc.varargPattern with
      | none =>
        obtain rfl : inPrefix = true := by rw [hin, hvararg]; rfl
        exact ih (hacc.pushPrefix hvararg hone) hin h
      | some v =>
        obtain rfl : inPrefix = false := by rw [hin, hvararg]; rfl
        exact ih (hacc.pushSuffix hvararg hone) hin h
    | none =>
      have hne : pattern.cardinality ≠ .one := by
        intro hone
        rw [isExact_eq_some.2 ⟨hone, rfl⟩] at hexact
        cases hexact
      rw [hexact] at h
      cases hvararg : acc.varargPattern with
      | none =>
        rw [hvararg] at h
        exact ih (hacc.setVararg hvararg hne) rfl h
      | some v =>
        rw [hvararg] at h
        cases h

theorem isPartition_of_partitionArgs (h : partitionArgs program patterns = .ok p) :
    IsPartition p patterns :=
  isPartition_of_partitionLoop .default rfl h

theorem IsPartition.atMostOneVararg (h : IsPartition p patterns) : AtMostOneVararg patterns := by
  have hone {l : List ArgMatcher} (hl : ∀ pattern ∈ l, pattern.cardinality = .one) :
      l.filter (fun pattern => pattern.cardinality ≠ .one) = [] := by
    rw [filter_eq_nil_iff]
    intro pattern hpattern
    simpa using hl pattern hpattern
  rw [AtMostOneVararg, h.eq, filter_append, filter_append, hone h.prefixOne,
    hone h.suffixOne, nil_append, append_nil]
  refine Nat.le_trans (length_filter_le _ _) ?_
  cases p.varargPattern with
  | none => exact Nat.zero_le 1
  | some v => exact Nat.le_refl 1

theorem exists_partitionLoop {inPrefix : Bool} {acc : PartitionedArgs}
    (h : (patterns.filter fun pattern => pattern.cardinality ≠ .one).length +
      acc.varargPattern.toList.length ≤ 1) :
    ∃ p, partitionLoop program inPrefix acc patterns = .ok p := by
  induction patterns generalizing inPrefix acc with
  | nil => exact ⟨acc, rfl⟩
  | cons pattern patterns ih =>
    rw [partitionLoop]
    cases hexact : pattern.cardinality.isExact with
    | some n =>
      rw [filter_cons_of_neg (by simp [(isExact_eq_some.1 hexact).1])] at h
      cases inPrefix with
      | true => exact ih h
      | false => exact ih h
    | none =>
      have hne : pattern.cardinality ≠ .one := by
        intro hone
        rw [isExact_eq_some.2 ⟨hone, rfl⟩] at hexact
        cases hexact
      rw [filter_cons_of_pos (by simpa using hne), length_cons] at h
      cases hvararg : acc.varargPattern with
      | none =>
        rw [hvararg] at h
        exact ih h
      | some v =>
        rw [hvararg, Option.toList_some, length_singleton] at h
        omega

theorem exists_partitionArgs_iff :
    (∃ p, partitionArgs program patterns = .ok p) ↔ AtMostOneVararg patterns := by
  constructor
  · rintro ⟨p, h⟩
    exact (isPartition_of_partitionArgs h).atMostOneVararg
  · exact fun h => exists_partitionLoop h

/-! ## What the resolver finds -/

theorem matchVararg_eq_ok_iff (hne : pattern.cardinality ≠ .one) :
    matchVararg program pattern args = .ok matched ↔ Fits [pattern] args matched := by
  rw [fits_singleton_iff, matchVararg, ArgMatcher.Takes]
  cases hcard : pattern.cardinality with
  | one => exact absurd hcard hne
  | atLeastOne =>
    dsimp only
    split
    next hempty =>
      exact iff_of_false nofun fun h => h.1 (List.isEmpty_iff.1 hempty)
    next hempty =>
      rw [matchAll_eq_ok_iff]
      exact ⟨fun h => ⟨fun hnil => hempty (List.isEmpty_iff.2 hnil), h⟩, And.right⟩
  | zeroOrMore => rw [matchAll_eq_ok_iff, true_and]

theorem checkExtra_eq_ok_iff {n : List MatchedArg} :
    checkExtra program args n = .ok matched ↔ args.length ≤ n.length ∧ matched = n := by
  rw [checkExtra]
  split
  next hlt =>
    refine iff_of_false ?_ fun h => Nat.not_le.2 hlt h.1
    rw [Result.bind_eq_ok_iff]
    rintro ⟨extra, -, h⟩
    cases h
  next hle =>
    rw [Except.ok.injEq]
    exact ⟨fun h => ⟨Nat.not_lt.1 hle, h.symm⟩, fun h => h.2.symm⟩

theorem IsPartition.fits_iff (h : IsPartition p patterns) : Fits patterns args matched ↔
    p.numPrefixArgs + p.numSuffixArgs ≤ args.length ∧ ∃ m v n, matched = m ++ v ++ n ∧
      Fits p.prefixPatterns (args.take p.numPrefixArgs) m ∧
      Fits p.varargPattern.toList
        ((args.take (args.length - p.numSuffixArgs)).drop p.numPrefixArgs) v ∧
      Fits p.suffixPatterns (args.drop (args.length - p.numSuffixArgs)) n := by
  rw [h.eq, fits_append_iff]
  constructor
  · rintro ⟨ab, c, mv, n, rfl, rfl, hab, hc⟩
    obtain ⟨a, b, m, v, rfl, rfl, ha, hb⟩ := fits_append_iff.1 hab
    have hla := ha.length_eq h.prefixOne
    have hlc := hc.length_eq h.suffixOne
    rw [← h.numPrefixArgs] at hla
    rw [← h.numSuffixArgs] at hlc
    have hlen : (a ++ b ++ c).length - p.numSuffixArgs = (a ++ b).length := by
      rw [length_append, hlc, Nat.add_sub_cancel]
    refine ⟨?_, m, v, n, rfl, ?_, ?_, ?_⟩
    · rw [length_append, length_append]
      omega
    · rwa [append_assoc, take_left' hla]
    · rwa [hlen, take_left, drop_left' hla]
    · rwa [hlen, drop_left]
  · rintro ⟨hle, m, v, n, rfl, hm, hv, hn⟩
    refine ⟨args.take (args.length - p.numSuffixArgs), _, m ++ v, n, ?_, rfl, ?_, hn⟩
    · rw [take_append_drop]
    · refine fits_append_iff.2 ⟨_, _, m, v, ?_, rfl, hm, hv⟩
      have htake : args.take p.numPrefixArgs =
          (args.take (args.length - p.numSuffixArgs)).take p.numPrefixArgs := by
        rw [take_take, Nat.min_eq_left (by omega)]
      rw [htake, take_append_drop]

/-- The variable-length pattern takes what is between the others. -/
theorem resolveVararg_eq_ok_iff {start last : Nat} {vararg : Option ArgMatcher}
    (hstart : start ≤ last) (hlast : last ≤ args.length)
    (hvararg : ∀ pattern ∈ vararg, pattern.cardinality ≠ .one) :
    resolveVararg program args start last vararg = .ok matched ↔
      (vararg = none → matched = []) ∧
        ∀ pattern ∈ vararg, Fits [pattern] ((args.take last).drop start) matched := by
  cases vararg with
  | none => simp [resolveVararg, eq_comm]
  | some pattern =>
    simp only [resolveVararg, Result.bind_eq_ok_iff, getRangeChecked_eq_ok, Checked.lift_eq_ok,
      matchVararg_eq_ok_iff (hvararg pattern rfl)]
    constructor
    · rintro ⟨vararg, ⟨-, -, rfl⟩, hfits⟩
      exact ⟨nofun, fun q hq => Option.mem_some_iff.1 hq ▸ hfits⟩
    · exact fun hfits => ⟨_, ⟨hstart, hlast, rfl⟩, hfits.2 pattern rfl⟩

/-- No argument is left over just where the variable-length pattern takes all between the
others. -/
theorem fits_between_iff {vararg : Option ArgMatcher} {between : List PositionalArg} :
    Fits vararg.toList between matched ↔ between.length ≤ matched.length ∧
      (vararg = none → matched = []) ∧ ∀ pattern ∈ vararg, Fits [pattern] between matched := by
  cases vararg with
  | none =>
    constructor
    · rintro ⟨⟩
      exact ⟨Nat.le_refl 0, fun _ => rfl, nofun⟩
    · rintro ⟨hlength, hnil, -⟩
      obtain rfl := hnil rfl
      obtain rfl := length_eq_zero_iff.1 (Nat.le_zero.1 hlength)
      exact .nil
  | some pattern =>
    constructor
    · intro h
      exact ⟨Nat.le_of_eq h.length_matched.symm, nofun, fun q hq => Option.mem_some_iff.1 hq ▸ h⟩
    · exact fun h => h.2.2 pattern rfl

theorem resolve_eq_ok_iff :
    resolveObservedArgsWithPatterns program args patterns = .ok matched ↔
      AtMostOneVararg patterns ∧ Fits patterns args matched := by
  constructor
  · intro h
    obtain ⟨p, hp, h⟩ := Result.exists_of_bind_eq_ok h
    have hpart := isPartition_of_partitionArgs (Checked.lift_eq_ok.1 hp)
    refine ⟨hpart.atMostOneVararg, hpart.fits_iff.2 ?_⟩
    obtain ⟨leading, hleading, h⟩ := Result.exists_of_bind_eq_ok h
    obtain ⟨-, hle, rfl⟩ := getRangeChecked_eq_ok.1 hleading
    obtain ⟨⟨m, j⟩, hm, h⟩ := Result.exists_of_bind_eq_ok h
    have hlength : (args.take p.numPrefixArgs).length = p.numPrefixArgs :=
      length_take_of_le hle
    rw [drop_zero, matchExact_eq_ok_iff hpart.prefixOne (by
      rw [hlength, hpart.numPrefixArgs, Nat.zero_add]), hlength, drop_zero] at hm
    obtain ⟨rfl, hm⟩ := hm
    dsimp only at h
    split at h
    · cases h
    next hsuffix =>
      split at h
      · cases h
      next hoverlap =>
        obtain ⟨v, hv, h⟩ := Result.exists_of_bind_eq_ok h
        obtain ⟨suffix, hsuffix', h⟩ := Result.exists_of_bind_eq_ok h
        obtain ⟨-, -, rfl⟩ := getRangeChecked_eq_ok.1 hsuffix'
        obtain ⟨⟨n, k⟩, hn, h⟩ := Result.exists_of_bind_eq_ok h
        obtain ⟨hextra, rfl⟩ := checkExtra_eq_ok_iff.1 h
        rw [take_length, matchExact_eq_ok_iff hpart.suffixOne (by
          rw [length_drop, ← hpart.numSuffixArgs]; omega), drop_zero] at hn
        rw [resolveVararg_eq_ok_iff (Nat.not_lt.1 hoverlap) (Nat.sub_le _ _) hpart.vararg] at hv
        refine ⟨by omega, m, v, n, rfl, hm, fits_between_iff.2 ⟨?_, hv⟩, hn.2⟩
        have hlm := hm.length_matched
        have hln := hn.2.length_matched
        rw [length_append, length_append, hlm, hln, hlength, length_drop] at hextra
        rw [length_drop, length_take]
        omega
  · rintro ⟨hone, hfits⟩
    obtain ⟨p, hp⟩ : ∃ p, partitionArgs program patterns = .ok p :=
      exists_partitionArgs_iff.2 hone
    have hpart := isPartition_of_partitionArgs hp
    obtain ⟨hle, m, v, n, rfl, hm, hv, hn⟩ := hpart.fits_iff.1 hfits
    obtain ⟨hbetween, hv⟩ := fits_between_iff.1 hv
    have hlength : (args.take p.numPrefixArgs).length = p.numPrefixArgs :=
      length_take_of_le (by omega)
    have hleading : matchExact (args.take p.numPrefixArgs) 0 p.prefixPatterns =
        .ok (m, p.numPrefixArgs) :=
      (matchExact_eq_ok_iff hpart.prefixOne (by
        rw [hlength, hpart.numPrefixArgs, Nat.zero_add])).2 ⟨hlength.symm, hm⟩
    have hsuffix : matchExact (args.drop (args.length - p.numSuffixArgs)) 0 p.suffixPatterns =
        .ok (n, (args.drop (args.length - p.numSuffixArgs)).length) :=
      (matchExact_eq_ok_iff hpart.suffixOne (by
        rw [length_drop, ← hpart.numSuffixArgs]; omega)).2 ⟨rfl, hn⟩
    have hvararg : resolveVararg program args p.numPrefixArgs (args.length - p.numSuffixArgs)
        p.varargPattern = .ok v :=
      (resolveVararg_eq_ok_iff (by omega) (Nat.sub_le _ _) hpart.vararg).2 hv
    rw [resolveObservedArgsWithPatterns, hp, Checked.lift_ok, Result.ok_bind,
      getRangeChecked_eq_ok.2 ⟨Nat.zero_le _, by omega, rfl⟩, Result.ok_bind, drop_zero,
      hleading, Result.ok_bind]
    dsimp only
    rw [if_neg (by omega), if_neg (by omega), hvararg, Result.ok_bind,
      getRangeChecked_eq_ok.2 ⟨Nat.sub_le _ _, Nat.le_refl _, rfl⟩, Result.ok_bind,
      take_length, hsuffix, Result.ok_bind]
    refine checkExtra_eq_ok_iff.2 ⟨?_, rfl⟩
    have hlm := hm.length_matched
    have hln := hn.length_matched
    rw [length_append, length_append, hlm, hln, hlength, length_drop]
    rw [length_drop, length_take] at hbetween
    omega

/-- No slice of the resolver is out of range. -/
theorem ends_resolve (program : Str) (args : List PositionalArg) (patterns : List ArgMatcher) :
    Checked.Ends (resolveObservedArgsWithPatterns program args patterns) := by
  refine (Checked.ends_lift _).bind fun p hp => ?_
  have hpart := isPartition_of_partitionArgs (Checked.lift_eq_ok.1 hp)
  refine (ends_getRangeChecked _ _ _).bind fun leading hleading => ?_
  obtain ⟨-, hle, rfl⟩ := getRangeChecked_eq_ok.1 hleading
  refine (ends_matchExact hpart.prefixOne ?_).bind fun r _ => ?_
  · rw [drop_zero, length_take_of_le hle, hpart.numPrefixArgs, Nat.zero_add]
  dsimp only
  split
  · exact Checked.ends_fails _
  next hsuffix =>
    split
    · exact Checked.ends_fails _
    next =>
      refine Checked.Ends.bind ?_ fun v _ => ?_
      · cases p.varargPattern with
        | none => exact Checked.ends_ok _
        | some pattern =>
          exact (ends_getRangeChecked _ _ _).bind fun vararg _ => Checked.ends_lift _
      · refine (ends_getRangeChecked _ _ _).bind fun suffix hsuffix' => ?_
        obtain ⟨-, -, rfl⟩ := getRangeChecked_eq_ok.1 hsuffix'
        refine (ends_matchExact hpart.suffixOne ?_).bind fun r _ => ?_
        · rw [take_length, length_drop, ← hpart.numSuffixArgs]
          omega
        · rw [checkExtra]
          split
          · exact (ends_getRangeChecked _ _ _).bind fun extra _ => Checked.ends_fails _
          · exact Checked.ends_ok _

end SheriMl.ExecPolicyLegacy
