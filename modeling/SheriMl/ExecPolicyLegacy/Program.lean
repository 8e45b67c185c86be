import Mathlib
import SheriMl.ExecPolicyLegacy.ArgResolver

/-!
# Checking a call against a program's specification

`execpolicy-legacy/src/program.rs`: a loop over the arguments takes flags and options with their
values out, and leaves positional arguments to the resolver. `check_eq_ok_iff` says which calls are
accepted (`Accepts`), in which every argument is read once and in order (`Reads`).
-/

namespace SheriMl.ExecPolicyLegacy

open Checked (Stop lift)

structure MatchedFlag where
  name : Str
  deriving DecidableEq

structure MatchedOpt where
  name : Str
  value : Str
  type : ArgType
  deriving DecidableEq

def MatchedOpt.new (name value : Str) (type : ArgType) : Except Error MatchedOpt :=
  (type.validate value).map fun _ => ⟨name, value, type⟩

structure ValidExec where
  program : Str
  flags : List MatchedFlag
  opts : List MatchedOpt
  args : List MatchedArg
  systemPath : List Str
  deriving DecidableEq

structure ExecCall where
  program : Str
  args : List Str

inductive OptMeta where
  | flag
  | value (type : ArgType)

structure Opt where
  optMeta : OptMeta
  required : Bool

structure ProgramSpec where
  program : Str
  systemPath : List Str
  allowedOptions : List (Str × Opt)
  argPatterns : List ArgMatcher
  forbidden : Option Str
  shouldMatch : List (List Str)
  shouldNotMatch : List (List Str)
  nodup : (allowedOptions.map Prod.fst).Nodup

/-- Of `Forbidden` what a specification gives. -/
inductive MatchedExec where
  | «match» (exec : ValidExec)
  | forbidden (exec : ValidExec) (reason : Str)
  deriving DecidableEq

structure PositiveExampleFailedCheck where
  program : Str
  args : List Str
  error : Stop Error

structure NegativeExamplePassedCheck where
  program : Str
  args : List Str

/-- The state of the loop over the arguments. -/
structure Scan where
  expectingOptionValue : Option (Str × ArgType)
  args : List PositionalArg
  matchedFlags : List MatchedFlag
  matchedOpts : List MatchedOpt

namespace ProgramSpec

variable (spec : ProgramSpec)

def requiredOptions : List Str :=
  (spec.allowedOptions.filter fun entry => entry.2.required).map Prod.fst

def checkArg (s : Scan) (index : Nat) (arg : Str) : Except Error Scan :=
  match s.expectingOptionValue with
  | some (name, argType) =>
    if Str.startsWith arg "-" then
      .error (.optionFollowedByOptionInsteadOfValue spec.program name arg)
    else
      (MatchedOpt.new name arg argType).map fun opt =>
        { s with matchedOpts := s.matchedOpts ++ [opt], expectingOptionValue := none }
  | none =>
    if arg = "--" then .error (.doubleDashNotSupportedYet spec.program)
    else if Str.startsWith arg "-" then
      match spec.allowedOptions.lookup arg with
      | some opt =>
        match opt.optMeta with
        | .flag => .ok { s with matchedFlags := s.matchedFlags ++ [⟨arg⟩] }
        | .value argType => .ok { s with expectingOptionValue := some (arg, argType) }
      | none => .error (.unknownOption spec.program arg)
    else .ok { s with args := s.args ++ [⟨index, arg⟩] }

def checkLoop : Nat → List Str → Scan → Except Error Scan
  | _, [], s => .ok s
  | index, arg :: args, s => do
    let s ← spec.checkArg s index arg
    checkLoop (index + 1) args s

def missingOptions (matchedOpts : List MatchedOpt) : List Str :=
  spec.requiredOptions.filter fun name => name ∉ matchedOpts.map MatchedOpt.name

def verdict (exec : ValidExec) : MatchedExec :=
  match spec.forbidden with
  | some reason => .forbidden exec reason
  | none => .match exec

def check (execCall : ExecCall) : Except (Stop Error) MatchedExec := do
  let s ← lift (spec.checkLoop 0 execCall.args ⟨none, [], [], []⟩)
  match s.expectingOptionValue with
  | some (name, _) => .error (.fails (.optionMissingValue spec.program name))
  | none => do
    let matchedArgs ← resolveObservedArgsWithPatterns spec.program s.args spec.argPatterns
    if spec.missingOptions s.matchedOpts ≠ [] then
      .error (.fails (.missingRequiredOptions spec.program
        ((spec.missingOptions s.matchedOpts).insertionSort (· ≤ ·))))
    else
      .ok (spec.verdict
        ⟨spec.program, s.matchedFlags, s.matchedOpts, matchedArgs, spec.systemPath⟩)

def verifyShouldMatchList : List PositiveExampleFailedCheck :=
  spec.shouldMatch.filterMap fun good =>
    match spec.check ⟨spec.program, good⟩ with
    | .ok _ => none
    | .error error => some ⟨spec.program, good, error⟩

def verifyShouldNotMatchList : List NegativeExamplePassedCheck :=
  spec.shouldNotMatch.filterMap fun bad =>
    match spec.check ⟨spec.program, bad⟩ with
    | .ok _ => some ⟨spec.program, bad⟩
    | .error _ => none

end ProgramSpec

/-! ## Reading the arguments -/

/-- What arguments are read as. -/
inductive Item where
  | flag (flag : MatchedFlag)
  | opt (opt : MatchedOpt)
  | positional (arg : PositionalArg)

namespace Item

def args : Item → List Str
  | .flag f => [f.name]
  | .opt o => [o.name, o.value]
  | .positional arg => [arg.value]

def flag? : Item → Option MatchedFlag
  | .flag f => some f
  | _ => none

def opt? : Item → Option MatchedOpt
  | .opt o => some o
  | _ => none

def positional? : Item → Option PositionalArg
  | .positional arg => some arg
  | _ => none

end Item

/-- A name that is read as an option, and what it means. -/
def ProgramSpec.Allows (spec : ProgramSpec) (name : Str) (optMeta : OptMeta) : Prop :=
  Str.startsWith name "-" = true ∧ name ≠ "--" ∧
    ∃ opt, spec.allowedOptions.lookup name = some opt ∧ opt.optMeta = optMeta

/-- The arguments from an index on, read from left to right: flags, options with their values, and
positional arguments. -/
inductive Reads (spec : ProgramSpec) : Nat → List Str → List Item → Prop
  | nil {index} : Reads spec index [] []
  | flag {index name args items} : spec.Allows name .flag → Reads spec (index + 1) args items →
      Reads spec index (name :: args) (.flag ⟨name⟩ :: items)
  | opt {index name value type args items} : spec.Allows name (.value type) →
      Str.startsWith value "-" = false → type.validate value = .ok () →
      Reads spec (index + 2) args items →
      Reads spec index (name :: value :: args) (.opt ⟨name, value, type⟩ :: items)
  | positional {index value args items} : Str.startsWith value "-" = false →
      Reads spec (index + 1) args items →
      Reads spec index (value :: args) (.positional ⟨index, value⟩ :: items)

variable {spec : ProgramSpec} {execCall : ExecCall} {args : List Str} {items : List Item}
  {index : Nat} {s s' : Scan}

/-- Every argument is read once and in order. -/
theorem Reads.flatMap_args (h : Reads spec index args items) : items.flatMap Item.args = args := by
  induction h with
  | nil => rfl
  | flag _ _ ih | opt _ _ _ _ ih | positional _ _ ih => rw [List.flatMap_cons, ih]; rfl

/-- Positional arguments have their own indices. -/
theorem Reads.getElem?_index (h : Reads spec index args items) :
    ∀ arg ∈ items.filterMap Item.positional?,
      index ≤ arg.index ∧ args[arg.index - index]? = some arg.value := by
  induction h with
  | nil => exact nofun
  | @flag index name args items _ _ ih =>
    intro arg harg
    obtain ⟨hle, hget⟩ := ih arg harg
    refine ⟨Nat.le_of_succ_le hle, ?_⟩
    rw [show arg.index - index = arg.index - (index + 1) + 1 by omega, List.getElem?_cons_succ,
      hget]
  | @opt index name value type args items _ _ _ _ ih =>
    intro arg harg
    obtain ⟨hle, hget⟩ := ih arg harg
    refine ⟨by omega, ?_⟩
    rw [show arg.index - index = arg.index - (index + 2) + 1 + 1 by omega, List.getElem?_cons_succ,
      List.getElem?_cons_succ, hget]
  | @positional index value args items _ _ ih =>
    intro arg harg
    rcases List.mem_cons.1 harg with rfl | harg
    · exact ⟨Nat.le_refl _, by rw [Nat.sub_self]; rfl⟩
    · obtain ⟨hle, hget⟩ := ih arg harg
      refine ⟨Nat.le_of_succ_le hle, ?_⟩
      rw [show arg.index - index = arg.index - (index + 1) + 1 by omega, List.getElem?_cons_succ,
        hget]

/-- What is read added to a state of the loop. -/
def Scan.add (s : Scan) (items : List Item) : Scan where
  expectingOptionValue := s.expectingOptionValue
  args := s.args ++ items.filterMap Item.positional?
  matchedFlags := s.matchedFlags ++ items.filterMap Item.flag?
  matchedOpts := s.matchedOpts ++ items.filterMap Item.opt?

theorem Scan.add_nil (s : Scan) : s.add [] = s := by
  rw [Scan.add, List.filterMap_nil, List.filterMap_nil, List.filterMap_nil, List.append_nil,
    List.append_nil, List.append_nil]

theorem Scan.add_flag (s : Scan) (f : MatchedFlag) (items : List Item) :
    s.add (.flag f :: items) = { s with matchedFlags := s.matchedFlags ++ [f] }.add items := by
  simp [Scan.add, List.filterMap_cons, Item.positional?, Item.flag?, Item.opt?]

theorem Scan.add_opt (s : Scan) (o : MatchedOpt) (items : List Item) :
    s.add (.opt o :: items) = { s with matchedOpts := s.matchedOpts ++ [o] }.add items := by
  simp [Scan.add, List.filterMap_cons, Item.positional?, Item.flag?, Item.opt?]

theorem Scan.add_positional (s : Scan) (arg : PositionalArg) (items : List Item) :
    s.add (.positional arg :: items) = { s with args := s.args ++ [arg] }.add items := by
  simp [Scan.add, List.filterMap_cons, Item.positional?, Item.flag?, Item.opt?]

theorem new_opt_eq_ok_iff {name value : Str} {type : ArgType} {o : MatchedOpt} :
    MatchedOpt.new name value type = .ok o ↔
      type.validate value = .ok () ∧ o = ⟨name, value, type⟩ := by
  rw [MatchedOpt.new]
  cases type.validate value with
  | error e => exact iff_of_false nofun fun h => nomatch h.1
  | ok _ => simp [Except.map, eq_comm]

/-! ## The loop over the arguments -/

/-- The next argument is the value of an option. -/
def ReadsValue (spec : ProgramSpec) (index : Nat) (args : List Str) (o : MatchedOpt)
    (items : List Item) : Prop :=
  ∃ rest, args = o.value :: rest ∧ Str.startsWith o.value "-" = false ∧
    o.type.validate o.value = .ok () ∧ Reads spec (index + 1) rest items

theorem allows_iff {arg : Str} {m : OptMeta} (hdash : Str.startsWith arg "-" = true)
    (hdouble : arg ≠ "--") :
    spec.Allows arg m ↔ (spec.allowedOptions.lookup arg).map Opt.optMeta = some m := by
  rw [ProgramSpec.Allows, Option.map_eq_some_iff]
  exact ⟨fun h => h.2.2, fun h => ⟨hdash, hdouble, h⟩⟩

theorem reads_cons_iff_of_dash {arg : Str} (hdash : Str.startsWith arg "-" = true) :
    Reads spec index (arg :: args) items ↔
      (spec.Allows arg .flag ∧ ∃ rest, Reads spec (index + 1) args rest ∧
        items = .flag ⟨arg⟩ :: rest) ∨
      ∃ o rest, o.name = arg ∧ spec.Allows arg (.value o.type) ∧
        ReadsValue spec (index + 1) args o rest ∧ items = .opt o :: rest := by
  constructor
  · intro h
    cases h with
    | flag hallows hrest => exact .inl ⟨hallows, _, hrest, rfl⟩
    | opt hallows hvalue hvalid hrest =>
      exact .inr ⟨_, _, rfl, hallows, ⟨_, rfl, hvalue, hvalid, hrest⟩, rfl⟩
    | positional hvalue _ =>
      rw [hdash] at hvalue
      cases hvalue
  · rintro (⟨hallows, rest, hrest, rfl⟩ | ⟨o, rest, rfl, hallows, hread, rfl⟩)
    · exact .flag hallows hrest
    · obtain ⟨args, rfl, hvalue, hvalid, hrest⟩ := hread
      exact .opt hallows hvalue hvalid hrest

theorem reads_cons_iff_of_not_dash {arg : Str} (hdash : Str.startsWith arg "-" = false) :
    Reads spec index (arg :: args) items ↔
      ∃ rest, Reads spec (index + 1) args rest ∧ items = .positional ⟨index, arg⟩ :: rest := by
  constructor
  · intro h
    cases h with
    | flag hallows _ | opt hallows _ _ _ =>
      rw [hallows.1] at hdash
      cases hdash
    | positional _ hrest => exact ⟨_, hrest, rfl⟩
  · rintro ⟨rest, hrest, rfl⟩
    exact .positional hdash hrest

/-- Between options the loop ends where the arguments can be read; behind one, where its value and
then the others can. -/
theorem checkLoop_eq_ok_iff {pos : List PositionalArg} {flags : List MatchedFlag}
    {opts : List MatchedOpt} :
    (spec.checkLoop index args ⟨none, pos, flags, opts⟩ = .ok s' ∧
        s'.expectingOptionValue = none ↔
      ∃ items, Reads spec index args items ∧ s' = Scan.add ⟨none, pos, flags, opts⟩ items) ∧
    ∀ name type,
      (spec.checkLoop index args ⟨some (name, type), pos, flags, opts⟩ = .ok s' ∧
          s'.expectingOptionValue = none ↔
        ∃ o items, o.name = name ∧ o.type = type ∧ ReadsValue spec index args o items ∧
          s' = Scan.add ⟨none, pos, flags, opts ++ [o]⟩ items) := by
  induction args generalizing index pos flags opts with
  | nil =>
    refine ⟨?_, fun name type => ?_⟩
    · rw [ProgramSpec.checkLoop, Except.ok.injEq]
      constructor
      · rintro ⟨rfl, -⟩
        exact ⟨[], .nil, (Scan.add_nil _).symm⟩
      · rintro ⟨items, hreads, rfl⟩
        cases hreads
        rw [Scan.add_nil]
        exact ⟨rfl, rfl⟩
    · rw [ProgramSpec.checkLoop, Except.ok.injEq]
      refine iff_of_false ?_ ?_
      · rintro ⟨rfl, hnone⟩
        cases hnone
      · rintro ⟨o, items, -, -, ⟨rest, hrest, -⟩, -⟩
        cases hrest
  | cons arg args ih =>
    refine ⟨?_, fun name type => ?_⟩
    · rw [ProgramSpec.checkLoop, ProgramSpec.checkArg]
      dsimp only
      cases hdash : Str.startsWith arg "-" with
      | false =>
        rw [if_neg (by rintro rfl; exact absurd hdash (by decide)), if_neg Bool.false_ne_true,
          Result.ok_bind, ih.1]
        simp only [reads_cons_iff_of_not_dash hdash]
        constructor
        · rintro ⟨rest, hreads, rfl⟩
          exact ⟨_, ⟨rest, hreads, rfl⟩, (Scan.add_positional ⟨none, pos, flags, opts⟩ _ _).symm⟩
        · rintro ⟨_, ⟨rest, hreads, rfl⟩, rfl⟩
          exact ⟨rest, hreads, Scan.add_positional ⟨none, pos, flags, opts⟩ _ _⟩
      | true =>
        simp only [reads_cons_iff_of_dash hdash, if_true]
        by_cases hdouble : arg = "--"
        · rw [if_pos hdouble]
          refine iff_of_false (fun h => nomatch h.1) ?_
          rintro ⟨items, ⟨hallows, -⟩ | ⟨o, rest, -, hallows, -⟩, -⟩
          · exact hallows.2.1 hdouble
          · exact hallows.2.1 hdouble
        · rw [if_neg hdouble]
          simp only [allows_iff hdash hdouble]
          cases hlookup : spec.allowedOptions.lookup arg with
          | none => exact iff_of_false (fun h => nomatch h.1) (by simp)
          | some opt =>
            dsimp only
            cases hmeta : opt.optMeta with
            | flag =>
              dsimp only
              rw [Result.ok_bind, ih.1]
              simp only [Option.map_some, hmeta, true_and, Option.some.injEq, reduceCtorEq,
                false_and, and_false, exists_false, or_false]
              constructor
              · rintro ⟨rest, hreads, rfl⟩
                exact ⟨_, ⟨rest, hreads, rfl⟩, (Scan.add_flag ⟨none, pos, flags, opts⟩ _ _).symm⟩
              · rintro ⟨_, ⟨rest, hreads, rfl⟩, rfl⟩
                exact ⟨rest, hreads, Scan.add_flag ⟨none, pos, flags, opts⟩ _ _⟩
            | value type =>
              dsimp only
              rw [Result.ok_bind, ih.2]
              simp only [Option.map_some, hmeta, Option.some.injEq, reduceCtorEq, false_and,
                false_or, OptMeta.value.injEq]
              constructor
              · rintro ⟨o, rest, hname, rfl, hreads, rfl⟩
                exact ⟨_, ⟨o, rest, hname, rfl, hreads, rfl⟩,
                  (Scan.add_opt ⟨none, pos, flags, opts⟩ _ _).symm⟩
              · rintro ⟨_, ⟨o, rest, hname, htype, hreads, rfl⟩, rfl⟩
                exact ⟨o, rest, hname, htype.symm, hreads,
                  Scan.add_opt ⟨none, pos, flags, opts⟩ _ _⟩
    · rw [ProgramSpec.checkLoop, ProgramSpec.checkArg]
      dsimp only
      cases hdash : Str.startsWith arg "-" with
      | true =>
        refine iff_of_false (fun h => nomatch h.1) ?_
        rintro ⟨o, items, -, -, ⟨rest, hrest, hvalue, -⟩, -⟩
        obtain ⟨rfl, -⟩ := List.cons.inj hrest
        rw [hdash] at hvalue
        cases hvalue
      | false =>
        rw [if_neg Bool.false_ne_true, Result.bind_eq_ok_iff]
        constructor
        · rintro ⟨⟨s₁, hs₁, hloop⟩, hnone⟩
          obtain ⟨o, ho, rfl⟩ := Result.exists_of_map_eq_ok hs₁
          obtain ⟨hvalid, rfl⟩ := new_opt_eq_ok_iff.1 ho
          obtain ⟨items, hreads, rfl⟩ := ih.1.1 ⟨hloop, hnone⟩
          exact ⟨_, items, rfl, rfl, ⟨args, rfl, hdash, hvalid, hreads⟩, rfl⟩
        · rintro ⟨o, items, rfl, rfl, ⟨rest, hrest, -, hvalid, hreads⟩, rfl⟩
          obtain ⟨rfl, rfl⟩ := List.cons.inj hrest
          obtain ⟨hloop, hnone⟩ := ih.1.2 ⟨items, hreads, rfl⟩
          refine ⟨⟨_, ?_, hloop⟩, hnone⟩
          rw [new_opt_eq_ok_iff.2 ⟨hvalid, rfl⟩]
          rfl

/-! ## What a specification accepts -/

/-- The arguments are read as flags, options with values and positional arguments; these fit the
patterns, and the required options are among those with values. -/
structure Accepts (spec : ProgramSpec) (args : List Str) (items : List Item) (exec : ValidExec) :
    Prop where
  reads : Reads spec 0 args items
  atMostOneVararg : AtMostOneVararg spec.argPatterns
  fits : Fits spec.argPatterns (items.filterMap Item.positional?) exec.args
  required : ∀ name ∈ spec.requiredOptions, ∃ o ∈ exec.opts, o.name = name
  flags : exec.flags = items.filterMap Item.flag?
  opts : exec.opts = items.filterMap Item.opt?
  program : exec.program = spec.program
  systemPath : exec.systemPath = spec.systemPath

variable {exec : ValidExec} {r : MatchedExec}

theorem missingOptions_eq_nil_iff {opts : List MatchedOpt} : spec.missingOptions opts = [] ↔
    ∀ name ∈ spec.requiredOptions, ∃ o ∈ opts, o.name = name := by
  simp [ProgramSpec.missingOptions, List.filter_eq_nil_iff]

theorem checkLoop_eq_ok_iff_reads : (spec.checkLoop 0 args ⟨none, [], [], []⟩ = .ok s ∧
    s.expectingOptionValue = none) ↔
      ∃ items, Reads spec 0 args items ∧ s = Scan.add ⟨none, [], [], []⟩ items :=
  checkLoop_eq_ok_iff.1

theorem check_eq_ok_iff : spec.check execCall = .ok r ↔
    ∃ items exec, Accepts spec execCall.args items exec ∧ r = spec.verdict exec := by
  rw [ProgramSpec.check, Result.bind_eq_ok_iff]
  constructor
  · rintro ⟨s, hloop, h⟩
    cases hexpecting : s.expectingOptionValue with
    | some expected =>
      rw [hexpecting] at h
      cases h
    | none =>
      rw [hexpecting] at h
      obtain ⟨items, hreads, rfl⟩ :=
        checkLoop_eq_ok_iff_reads.1 ⟨Checked.lift_eq_ok.1 hloop, hexpecting⟩
      obtain ⟨matched, hresolve, h⟩ := Result.exists_of_bind_eq_ok h
      obtain ⟨hone, hfits⟩ := resolve_eq_ok_iff.1 hresolve
      split at h
      · cases h
      next hmissing =>
        cases h
        have hrequired := missingOptions_eq_nil_iff.1 (Decidable.not_not.1 hmissing)
        refine ⟨items, ⟨spec.program, items.filterMap Item.flag?, items.filterMap Item.opt?,
          matched, spec.systemPath⟩, ?_, rfl⟩
        exact ⟨hreads, hone, hfits, hrequired, rfl, rfl, rfl, rfl⟩
  · rintro ⟨items, ⟨program, flags, opts, matched, systemPath⟩, h, rfl⟩
    obtain ⟨hreads, hone, hfits, hrequired, rfl, rfl, rfl, rfl⟩ := h
    obtain ⟨hloop, -⟩ := checkLoop_eq_ok_iff_reads.2 ⟨items, hreads, rfl⟩
    refine ⟨_, Checked.lift_eq_ok.2 hloop, ?_⟩
    refine Result.bind_eq_ok_iff.2 ⟨matched, resolve_eq_ok_iff.2 ⟨hone, hfits⟩, ?_⟩
    exact if_neg (Decidable.not_not.2 (missingOptions_eq_nil_iff.2 hrequired))

theorem ends_check (spec : ProgramSpec) (execCall : ExecCall) :
    Checked.Ends (spec.check execCall) := by
  refine (Checked.ends_lift _).bind fun s _ => ?_
  split
  · exact Checked.ends_fails _
  · refine (ends_resolve _ _ _).bind fun matched _ => ?_
    split
    · exact Checked.ends_fails _
    · exact Checked.ends_ok _

theorem Fits.map_positional {patterns : List ArgMatcher} {pos : List PositionalArg}
    {matched : List MatchedArg} (h : Fits patterns pos matched) :
    (matched.map fun arg => (⟨arg.index, arg.value⟩ : PositionalArg)) = pos := by
  induction h with
  | nil => rfl
  | cons _ _ _ ih =>
    rw [List.map_append, ih, List.map_map]
    exact congrArg (· ++ _) (List.map_id _)

theorem exists_check_eq_ok_iff (execCall : ExecCall) : (∃ r, spec.check execCall = .ok r) ↔
    ∃ items exec, Accepts spec execCall.args items exec := by
  simp only [check_eq_ok_iff]
  constructor
  · rintro ⟨r, items, exec, h, -⟩
    exact ⟨items, exec, h⟩
  · rintro ⟨items, exec, h⟩
    exact ⟨_, items, exec, h, rfl⟩

/-- No violation is found just when all examples are accepted that ought to be. -/
theorem verifyShouldMatchList_eq_nil_iff : spec.verifyShouldMatchList = [] ↔
    ∀ good ∈ spec.shouldMatch, ∃ items exec, Accepts spec good items exec := by
  rw [ProgramSpec.verifyShouldMatchList, List.filterMap_eq_nil_iff]
  refine forall₂_congr fun good _ => ?_
  rw [← exists_check_eq_ok_iff ⟨spec.program, good⟩]
  cases spec.check ⟨spec.program, good⟩ <;> simp

theorem verifyShouldNotMatchList_eq_nil_iff : spec.verifyShouldNotMatchList = [] ↔
    ∀ bad ∈ spec.shouldNotMatch, ¬∃ items exec, Accepts spec bad items exec := by
  rw [ProgramSpec.verifyShouldNotMatchList, List.filterMap_eq_nil_iff]
  refine forall₂_congr fun bad _ => ?_
  rw [← exists_check_eq_ok_iff ⟨spec.program, bad⟩]
  cases spec.check ⟨spec.program, bad⟩ <;> simp

/-- A check succeeds just for the arguments that the specification accepts; each of them is in the
result once and in order, positional ones with their index; and no slice is out of range. -/
theorem check_accepts (spec : ProgramSpec) (execCall : ExecCall) :
    (∀ r, spec.check execCall = .ok r ↔
      ∃ items exec, Accepts spec execCall.args items exec ∧ r = spec.verdict exec) ∧
    (∀ items exec, Accepts spec execCall.args items exec →
      items.flatMap Item.args = execCall.args ∧
      (exec.args.map fun arg => (⟨arg.index, arg.value⟩ : PositionalArg)) =
        items.filterMap Item.positional? ∧
      ∀ arg ∈ exec.args, execCall.args[arg.index]? = some arg.value) ∧
    Checked.Ends (spec.check execCall) := by
  refine ⟨fun r => check_eq_ok_iff, fun items exec h => ?_, ends_check spec execCall⟩
  refine ⟨h.reads.flatMap_args, h.fits.map_positional, fun arg harg => ?_⟩
  have hmem : (⟨arg.index, arg.value⟩ : PositionalArg) ∈ items.filterMap Item.positional? := by
    rw [← h.fits.map_positional]
    exact List.mem_map_of_mem harg
  exact (h.reads.getElem?_index _ hmem).2

/-! ## A policy -/

/-- A regular expression is what it matches. -/
structure ForbiddenProgramRegex where
  isMatch : Str → Bool
  reason : Str

/-- The specifications as they were added. -/
structure Policy where
  programs : List ProgramSpec
  forbiddenProgramRegexes : List ForbiddenProgramRegex
  forbiddenSubstrings : List Str

inductive PolicyMatch where
  | spec (matched : MatchedExec)
  | forbiddenProgram (execCall : ExecCall) (reason : Str)
  | forbiddenArg (arg : Str) (execCall : ExecCall)

inductive PolicyError where
  | noSpecForProgram (program : Str)
  | spec (error : Stop Error)

namespace Policy

variable (policy : Policy)

/-- `forbidden_substrings_pattern`, the alternative of the escaped substrings. -/
def forbidsArg (arg : Str) : Bool := policy.forbiddenSubstrings.any fun s => s <:+: arg

/-- The loop over the specifications of a program; none of their checks panics (`ends_check`). -/
def checkSpecs (execCall : ExecCall) :
    PolicyError → List ProgramSpec → Except PolicyError PolicyMatch
  | lastErr, [] => .error lastErr
  | _, spec :: specs =>
    match spec.check execCall with
    | .ok matched => .ok (.spec matched)
    | .error error => checkSpecs execCall (.spec error) specs

def specsOf (program : Str) : List ProgramSpec :=
  policy.programs.filter fun spec => spec.program = program

def check (execCall : ExecCall) : Except PolicyError PolicyMatch :=
  match policy.forbiddenProgramRegexes.find? fun regex => regex.isMatch execCall.program with
  | some regex => .ok (.forbiddenProgram execCall regex.reason)
  | none =>
    match execCall.args.find? policy.forbidsArg with
    | some arg => .ok (.forbiddenArg arg execCall)
    | none =>
      checkSpecs execCall (.noSpecForProgram execCall.program) (policy.specsOf execCall.program)

/-- The violations program by program. -/
def checkEachGoodListIndividually : List PositiveExampleFailedCheck :=
  policy.programs.flatMap ProgramSpec.verifyShouldMatchList

def checkEachBadListIndividually : List NegativeExamplePassedCheck :=
  policy.programs.flatMap ProgramSpec.verifyShouldNotMatchList

def Forbids (execCall : ExecCall) : Prop :=
  (∃ regex ∈ policy.forbiddenProgramRegexes, regex.isMatch execCall.program = true) ∨
    ∃ arg ∈ execCall.args, ∃ s ∈ policy.forbiddenSubstrings, s <:+: arg

/-- The first of the specifications that accepts a call gives the verdict. -/
inductive FirstAccepts (execCall : ExecCall) : List ProgramSpec → MatchedExec → Prop
  | here {spec : ProgramSpec} {items : List Item} {exec : ValidExec} (specs : List ProgramSpec)
    (h : Accepts spec execCall.args items exec) :
    FirstAccepts execCall (spec :: specs) (spec.verdict exec)
  | later {spec : ProgramSpec} {specs : List ProgramSpec} {matched : MatchedExec}
    (hnot : ¬∃ items exec, Accepts spec execCall.args items exec)
    (h : FirstAccepts execCall specs matched) : FirstAccepts execCall (spec :: specs) matched

variable {policy}

theorem checkSpecs_eq_ok_iff {execCall : ExecCall} {lastErr : PolicyError}
    {specs : List ProgramSpec} {r : PolicyMatch} : checkSpecs execCall lastErr specs = .ok r ↔
      ∃ matched, r = .spec matched ∧ FirstAccepts execCall specs matched := by
  induction specs generalizing lastErr with
  | nil => exact iff_of_false nofun (by rintro ⟨_, -, ⟨⟩⟩)
  | cons spec specs ih =>
    rw [checkSpecs]
    split
    next matched hcheck =>
      have haccepts := check_eq_ok_iff.1 hcheck
      constructor
      · rintro ⟨⟩
        obtain ⟨items, exec, h, rfl⟩ := haccepts
        exact ⟨_, rfl, .here specs h⟩
      · rintro ⟨_, rfl, h⟩
        cases h with
        | here _ h => rw [check_eq_ok_iff.2 ⟨_, _, h, rfl⟩] at hcheck; rw [Except.ok.inj hcheck]
        | later hnot _ => exact absurd ((exists_check_eq_ok_iff execCall).1 ⟨_, hcheck⟩) hnot
    next error hcheck =>
      have hnot : ¬∃ items exec, Accepts spec execCall.args items exec := by
        rintro h
        obtain ⟨r, hr⟩ := (exists_check_eq_ok_iff execCall).2 h
        cases hcheck.symm.trans hr
      rw [ih]
      refine exists_congr fun matched => and_congr_right fun _ => ⟨.later hnot, fun h => ?_⟩
      cases h with
      | here _ h => exact absurd ⟨_, _, h⟩ hnot
      | later _ h => exact h

/-- A policy lets a specification decide just about the calls that it does not forbid, and the first
that accepts the arguments decides. -/
theorem check_eq_spec_iff (policy : Policy) (execCall : ExecCall) (matched : MatchedExec) :
    policy.check execCall = .ok (.spec matched) ↔
      ¬policy.Forbids execCall ∧
        FirstAccepts execCall (policy.specsOf execCall.program) matched := by
  rw [check, Forbids, not_or]
  split
  next regex hfind =>
    have hmatch := List.find?_some hfind
    exact iff_of_false nofun fun h => h.1.1 ⟨regex, List.mem_of_find?_eq_some hfind, hmatch⟩
  next hfind =>
    have hregexes : ¬∃ regex ∈ policy.forbiddenProgramRegexes,
        regex.isMatch execCall.program = true := by
      simpa using List.find?_eq_none.1 hfind
    split
    next arg hfind =>
      have hforbids := List.find?_some hfind
      rw [forbidsArg, List.any_eq_true] at hforbids
      obtain ⟨s, hs, hinfix⟩ := hforbids
      exact iff_of_false nofun fun h => h.1.2
        ⟨arg, List.mem_of_find?_eq_some hfind, s, hs, of_decide_eq_true hinfix⟩
    next hfind =>
      have hargs : ¬∃ arg ∈ execCall.args, ∃ s ∈ policy.forbiddenSubstrings, s <:+: arg := by
        simpa [forbidsArg] using List.find?_eq_none.1 hfind
      rw [checkSpecs_eq_ok_iff, and_iff_right ⟨hregexes, hargs⟩]
      simp

end Policy

/-- Some options, all of them flags. -/
def flagsOnly (name : Str) (required : Bool) : ProgramSpec where
  program := "tool"
  systemPath := []
  allowedOptions := [(name, ⟨.flag, required⟩)]
  argPatterns := []
  forbidden := none
  shouldMatch := []
  shouldNotMatch := []
  nodup := List.nodup_singleton _

/-- An allowed flag is refused when it is `--`, when it is required, and when it does not start
with `-`. -/
theorem check_flagsOnly :
    (flagsOnly "--" false).check ⟨"tool", ["--"]⟩ =
      .error (.fails (.doubleDashNotSupportedYet "tool")) ∧
    (flagsOnly "-x" true).check ⟨"tool", ["-x"]⟩ =
      .error (.fails (.missingRequiredOptions "tool" ["-x"])) ∧
    (flagsOnly "x" false).check ⟨"tool", ["x"]⟩ =
      .error (.fails (.unexpectedArguments "tool" [⟨0, "x"⟩])) := by
  decide

end SheriMl.ExecPolicyLegacy
