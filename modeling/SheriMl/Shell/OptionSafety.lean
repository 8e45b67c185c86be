import SheriMl.Lib.Options
import SheriMl.Shell.CommandSafety

/-!
# Unsafe options of known-safe commands

`is_safe_to_call_with_exec` compares the arguments of some tools with the options it lists as
unsafe. The tools read clusters of letters, and git reads options before its subcommand; which of
their options take a value is a parameter (`Tools`). `not_unsafeInEffect_iff`: a listed option is in
effect in an accepted command just where it is spelled in a way that is overlooked.
-/

namespace SheriMl.Shell

open Options (Opt)

/-- The option syntax of the tools, as far as the function relies on it: which options it lists
with arguments and which without. -/
structure Tools where
  rg : Options.Syntax
  base64 : Options.Syntax
  /-- of git's subcommands -/
  git : Options.Syntax
  /-- how many arguments belong to a word of a `find` expression -/
  findOperands : Str → Nat
  rg_flags : rg.letterTakesValue 'z' = false ∧ rg.nameTakesValue "--search-zip" = false
  base64_output : base64.letterTakesValue 'o' = true
  git_flags : git.nameTakesValue "--ext-diff" = false ∧ git.nameTakesValue "--textconv" = false ∧
    git.nameTakesValue "--paginate" = false

/-- The tools with a list of unsafe options. -/
inductive Tool where
  | rg
  | find
  | base64
  | git

def Tool.name : Tool → Str
  | .rg => "rg"
  | .find => "find"
  | .base64 => "base64"
  | .git => "git"

/-- The arguments before git's subcommand that are not values, and those behind it. -/
def gitArguments : Bool → List Str → List Str × List Str
  | _, [] => ([], [])
  | true, _ :: args => gitArguments false args
  | false, arg :: args =>
    if Str.startsWith arg "-" then
      let (globals, rest) := gitArguments (isGitGlobalOptionWithValue arg) args
      (arg :: globals, rest)
    else ([], args)

/-- The words of a `find` expression that belong to no other. -/
def findWords (operands : Str → Nat) : Nat → List Str → List Str
  | _, [] => []
  | n + 1, _ :: args => findWords operands n args
  | 0, word :: args => word :: findWords operands (operands word) args

def unsafeGitNames : List Str := ["--output", "--ext-diff", "--textconv", "--exec", "--paginate"]

/-- An option that is listed for the tool is in effect. Of git's own options, `-p` is `--paginate`,
and `-c` and `--config-env` override the configuration. -/
def UnsafeInEffect (tools : Tools) (args : List Str) : Tool → Prop
  | .rg => tools.rg.Given args (.short 'z') ∨ tools.rg.Given args (.long "--search-zip") ∨
      tools.rg.Given args (.long "--pre") ∨ tools.rg.Given args (.long "--hostname-bin")
  | .find => ∃ word ∈ findWords tools.findOperands 0 args,
      ∃ opt ∈ unsafeFindOptions, word = String.toList opt
  | .base64 => tools.base64.Given args (.short 'o') ∨ tools.base64.Given args (.long "--output")
  | .git => (∃ arg ∈ (gitArguments false args).1, arg = "-p" ∨ arg = "--paginate" ∨
        gitHasConfigOverrideGlobalOption [arg] = true) ∨
      ∃ name ∈ unsafeGitNames, tools.git.Given (gitArguments false args).2 (.long name)

/-- The spellings that are overlooked: `z` or `o` in a cluster with other letters, and git's pager
before the subcommand. -/
def Overlooked (tools : Tools) (args : List Str) : Tool → Prop
  | .rg => ∃ p ∈ tools.rg.positions false args, ∃ letters, p.1 = '-' :: letters ∧
      letters.head? ≠ some '-' ∧ 2 ≤ letters.length ∧ 'z' ∈ tools.rg.flags letters
  | .find => False
  | .base64 => ∃ p ∈ tools.base64.positions false args, ∃ letters, p.1 = '-' :: letters ∧
      letters.head? ≠ some '-' ∧ tools.base64.flags letters ≠ [] ∧
        ∃ value, letters = tools.base64.flags letters ++ 'o' :: value ∧ (value ≠ [] ∨ p.2 ≠ none)
  | .git => ∃ arg ∈ (gitArguments false args).1, arg = "-p" ∨ arg = "--paginate"

variable {tools : Tools} {pf : Platform} {cmd0 : Str} {args : List Str} {tool : Tool}

def Tool.check : Tool → List Str → Bool
  | .rg => isSafeRipgrep
  | .find => isSafeFind
  | .base64 => isSafeBase64
  | .git => isSafeGit

theorem isSafeToCallWithExec_eq (h : Path.fileName cmd0 = some tool.name) :
    isSafeToCallWithExec pf (cmd0 :: args) = tool.check (cmd0 :: args) := by
  have hlinux : ∀ t : Tool, ¬(t.name = "numfmt" ∨ t.name = "tac") := by
    intro t
    cases t <;> decide
  have hnames : ∀ t : Tool, ¬safeNames.any (fun name => t.name = String.toList name) = true := by
    intro t
    cases t <;> decide
  rw [isSafeToCallWithExec, h]
  dsimp only
  rw [if_neg (by simpa using fun _ => not_or.1 (hlinux tool)), if_neg (hnames tool)]
  cases tool with
  | rg => rfl
  | find => rfl
  | base64 => rfl
  | git => rfl

/-! ## What an accepted command does not contain -/

theorem not_given_of_refused {stx : Options.Syntax} {name : Str} (hne : ∀ arg ∈ args, arg ≠ name)
    (hinline : stx.nameTakesValue name = true → ∀ arg ∈ args,
      ¬Str.startsWith arg (name ++ ['=']) = true) : ¬stx.Given args (.long name) := by
  intro h
  obtain ⟨arg, harg, rfl | ⟨htakes, value, rfl⟩⟩ := Options.exists_of_long_given h
  · exact hne arg harg rfl
  · refine hinline htakes _ harg (Str.startsWith_iff.2 ⟨value, ?_⟩)
    rw [List.append_assoc, List.singleton_append]

theorem ne_of_isSafeRipgrep (h : isSafeRipgrep (cmd0 :: args) = true) : ∀ arg ∈ args,
    arg ≠ "--search-zip" ∧ arg ≠ "-z" ∧
      ∀ opt ∈ ["--pre", "--hostname-bin"], arg ≠ String.toList opt ∧
        ¬Str.startsWith arg (String.toList opt ++ ['=']) = true := by
  intro arg harg
  rw [isSafeRipgrep, Bool.not_eq_true', List.any_eq_false] at h
  have hrefused := h arg (List.mem_cons_of_mem cmd0 harg)
  simp only [Bool.or_eq_true, decide_eq_true_eq, List.any_eq_true, not_or, not_exists,
    not_and] at hrefused
  exact ⟨hrefused.1.1, hrefused.1.2, hrefused.2⟩

theorem ne_of_isSafeBase64 (h : isSafeBase64 (cmd0 :: args) = true) : ∀ arg ∈ args,
    arg ≠ "--output" ∧ ¬Str.startsWith arg "--output=" = true ∧
      ¬Str.startsWith arg "-o" = true := by
  intro arg harg
  rw [isSafeBase64, Bool.not_eq_true', List.drop_one, List.tail_cons, List.any_eq_false] at h
  have hrefused := h arg harg
  simp only [Bool.or_eq_true, Bool.and_eq_true, decide_eq_true_eq, not_or, not_and,
    ne_eq, Decidable.not_not] at hrefused
  refine ⟨hrefused.1.1.2, hrefused.1.2, fun hstarts => ?_⟩
  exact hrefused.1.1.1 (hrefused.2 hstarts)

theorem ne_of_isSafeFind (h : isSafeFind (cmd0 :: args) = true) : ∀ arg ∈ args,
    ∀ opt ∈ unsafeFindOptions, arg ≠ String.toList opt := by
  intro arg harg
  rw [isSafeFind, Bool.not_eq_true', List.any_eq_false] at h
  have hrefused := h arg (List.mem_cons_of_mem cmd0 harg)
  simpa using hrefused

theorem ne_of_gitSubcommandArgsAreReadOnly (h : gitSubcommandArgsAreReadOnly args = true) :
    ∀ arg ∈ args, (∀ name ∈ unsafeGitNames, arg ≠ name) ∧
      ¬Str.startsWith arg "--output=" = true ∧ ¬Str.startsWith arg "--exec=" = true := by
  intro arg harg
  rw [gitSubcommandArgsAreReadOnly, Bool.not_eq_true', List.any_eq_false] at h
  have hrefused := h arg harg
  simp only [Bool.or_eq_true, decide_eq_true_eq, List.any_eq_true, not_or, not_exists,
    not_and] at hrefused
  refine ⟨fun name hname => ?_, hrefused.1.2, hrefused.2⟩
  have hlisted : ∀ name ∈ unsafeGitNames, ∃ flag ∈ ["--output", "--ext-diff", "--textconv",
      "--exec", "--paginate"], name = String.toList flag := by decide
  obtain ⟨flag, hflag, rfl⟩ := hlisted name hname
  exact hrefused.1.1 flag hflag

theorem mem_of_mem_findWords {operands : Str → Nat} {n : Nat} {word : Str}
    (h : word ∈ findWords operands n args) : word ∈ args := by
  induction args generalizing n with
  | nil => cases n <;> cases h
  | cons arg args ih =>
    cases n with
    | succ n => exact List.mem_cons_of_mem arg (ih h)
    | zero =>
      rcases List.mem_cons.1 h with rfl | h
      · exact List.mem_cons_self
      · exact List.mem_cons_of_mem arg (ih h)

/-! ## Git's own options -/

theorem not_inline_of_value {arg : Str} (h : isGitGlobalOptionWithValue arg = true) :
    isGitGlobalOptionWithInlineValue arg = false ∧ Str.startsWith arg "-" = true := by
  obtain ⟨opt, hopt, harg⟩ := List.any_eq_true.1 h
  have hall : ∀ opt ∈ ["-C", "-c", "--config-env", "--exec-path", "--git-dir", "--namespace",
      "--super-prefix", "--work-tree"],
      isGitGlobalOptionWithInlineValue (String.toList opt) = false ∧
        Str.startsWith (String.toList opt) "-" = true := by decide
  rw [of_decide_eq_true harg]
  exact hall opt hopt

theorem startsWith_of_inline {arg : Str} (h : isGitGlobalOptionWithInlineValue arg = true) :
    Str.startsWith arg "-" = true := by
  have hdash {p : Str} (hp : Str.startsWith p "-" = true) (harg : Str.startsWith arg p = true) :
      Str.startsWith arg "-" = true := by
    obtain ⟨rest, rfl⟩ := Str.startsWith_iff.1 hp
    obtain ⟨rest', rfl⟩ := Str.startsWith_iff.1 harg
    exact Str.startsWith_iff.2 ⟨rest ++ rest', by rw [List.append_assoc]⟩
  rw [isGitGlobalOptionWithInlineValue, Bool.or_eq_true, Bool.and_eq_true, Bool.or_eq_true] at h
  rcases h with hlong | ⟨hC | hc, -⟩
  · obtain ⟨opt, hopt, harg⟩ := List.any_eq_true.1 hlong
    have hall : ∀ opt ∈ ["--config-env=", "--exec-path=", "--git-dir=", "--namespace=",
        "--super-prefix=", "--work-tree="], Str.startsWith (String.toList opt) "-" = true := by
      decide
    exact hdash (hall opt hopt) harg
  · exact hdash (p := "-C") (by decide) hC
  · exact hdash (p := "-c") (by decide) hc

/-- The subcommand that is found is the first argument that is neither an option nor a value. -/
theorem gitArguments_of_findGitSubcommandFrom {subcommands : List Str} {n i : Nat} {skip : Bool}
    {subcommand : Str}
    (h : findGitSubcommandFrom subcommands n skip args = some (i, subcommand)) :
    n ≤ i ∧ (gitArguments skip args).2 = args.drop (i + 1 - n) := by
  induction args generalizing n skip with
  | nil => cases skip <;> cases h
  | cons arg args ih =>
    have hnext {skip' : Bool}
        (h : findGitSubcommandFrom subcommands (n + 1) skip' args = some (i, subcommand)) :
        n ≤ i ∧ (gitArguments skip' args).2 = (arg :: args).drop (i + 1 - n) := by
      obtain ⟨hle, hrest⟩ := ih h
      refine ⟨Nat.le_of_succ_le hle, ?_⟩
      rw [hrest, show i + 1 - n = i + 1 - (n + 1) + 1 by omega, List.drop_succ_cons]
    cases skip with
    | true => exact hnext h
    | false =>
      rw [findGitSubcommandFrom] at h
      rw [gitArguments]
      cases hvalue : isGitGlobalOptionWithValue arg with
      | true =>
        obtain ⟨hinline, hdash⟩ := not_inline_of_value hvalue
        rw [hinline, if_neg Bool.false_ne_true, hvalue, if_pos rfl] at h
        rw [if_pos hdash]
        exact hnext h
      | false =>
        rw [hvalue, if_neg Bool.false_ne_true] at h
        by_cases hdash : Str.startsWith arg "-" = true
        · rw [if_pos hdash]
          split at h
          · exact hnext h
          · rw [if_pos (by rw [hdash, Bool.or_true])] at h
            exact hnext h
        · rw [if_neg hdash]
          have hinline : ¬isGitGlobalOptionWithInlineValue arg = true :=
            fun hinline => hdash (startsWith_of_inline hinline)
          have hends : arg ≠ "--" := by
            rintro rfl
            exact hdash (by decide)
          rw [if_neg hinline, if_neg (by
            rw [Bool.or_eq_true, decide_eq_true_eq]
            exact not_or.2 ⟨hends, hdash⟩)] at h
          split at h
          · cases h
            exact ⟨Nat.le_refl _, by rw [Nat.add_sub_cancel_left]; rfl⟩
          · cases h

theorem gitArguments_of_isSafeGit (h : isSafeGit (cmd0 :: args) = true) :
    gitHasConfigOverrideGlobalOption (cmd0 :: args) = false ∧
      gitSubcommandArgsAreReadOnly (gitArguments false args).2 = true := by
  rw [isSafeGit, Bool.and_eq_true, Bool.not_eq_true'] at h
  refine ⟨h.1, ?_⟩
  cases hfind : findGitSubcommand (cmd0 :: args) ["status", "log", "diff", "show", "branch"] with
  | none =>
    rw [hfind] at h
    cases h.2
  | some found =>
    obtain ⟨i, subcommand⟩ := found
    rw [hfind] at h
    rw [findGitSubcommand] at hfind
    split at hfind
    · obtain ⟨hle, hrest⟩ := gitArguments_of_findGitSubcommandFrom hfind
      have hdrop : (cmd0 :: args).drop (i + 1) = (gitArguments false args).2 := by
        rw [hrest, List.drop_succ_cons, Nat.add_sub_cancel]
      rw [← hdrop]
      have hargs := h.2
      dsimp only at hargs
      split at hargs
      · exact (Bool.and_eq_true_iff.1 hargs).1
      · exact hargs
    · cases hfind

theorem mem_of_mem_gitArguments {skip : Bool} {arg : Str} (h : arg ∈ (gitArguments skip args).1) :
    arg ∈ args := by
  induction args generalizing skip with
  | nil => cases skip <;> cases h
  | cons arg' args ih =>
    cases skip with
    | true => exact List.mem_cons_of_mem arg' (ih h)
    | false =>
      rw [gitArguments] at h
      split at h
      · rcases List.mem_cons.1 h with rfl | h
        · exact List.mem_cons_self
        · exact List.mem_cons_of_mem arg' (ih h)
      · cases h

/-! ## The spellings that are overlooked -/

theorem unsafeInEffect_rg_iff (h : isSafeRipgrep (cmd0 :: args) = true) :
    UnsafeInEffect tools args .rg ↔ Overlooked tools args .rg := by
  have hargs := ne_of_isSafeRipgrep h
  have hzip : ¬tools.rg.Given args (.long "--search-zip") :=
    not_given_of_refused (fun arg harg => (hargs arg harg).1) fun htakes => by
      rw [tools.rg_flags.2] at htakes
      cases htakes
  have hlong : ∀ opt ∈ ["--pre", "--hostname-bin"],
      ¬tools.rg.Given args (.long (String.toList opt)) := by
    intro opt hopt
    refine not_given_of_refused (fun arg harg => ((hargs arg harg).2.2 opt hopt).1) ?_
    intro _ arg harg
    exact ((hargs arg harg).2.2 opt hopt).2
  have hpre := hlong "--pre" (by decide)
  have hhost := hlong "--hostname-bin" (by decide)
  refine Iff.trans (b := tools.rg.Given args (.short 'z')) ?_ ?_
  · constructor
    · rintro (hz | hz | hz | hz)
      · exact hz
      · exact absurd hz hzip
      · exact absurd hz hpre
      · exact absurd hz hhost
    · exact Or.inl
  · rw [Options.flag_given_iff tools.rg_flags.1]
    constructor
    · rintro ⟨p, hp, letters, harg, hhead, hz⟩
      refine ⟨p, hp, letters, harg, hhead, ?_, hz⟩
      -- the only cluster of one letter that has a `z` is refused
      by_contra hlt
      obtain ⟨a, rfl⟩ : ∃ a, letters = [a] := by
        rcases letters with _ | ⟨a, _ | ⟨b, rest⟩⟩
        · cases hz
        · exact ⟨a, rfl⟩
        · exact absurd (Nat.le_add_left 2 rest.length) hlt
      obtain rfl := List.mem_singleton.1 ((List.takeWhile_prefix _).subset hz)
      exact (hargs p.1 (Options.mem_of_mem_positions hp)).2.1 harg
    · rintro ⟨p, hp, letters, harg, hhead, -, hz⟩
      exact ⟨p, hp, letters, harg, hhead, hz⟩

theorem unsafeInEffect_base64_iff (h : isSafeBase64 (cmd0 :: args) = true) :
    UnsafeInEffect tools args .base64 ↔ Overlooked tools args .base64 := by
  have hargs := ne_of_isSafeBase64 h
  have hlong : ¬tools.base64.Given args (.long "--output") :=
    not_given_of_refused (fun arg harg => (hargs arg harg).1) fun _ arg harg => (hargs arg harg).2.1
  rw [UnsafeInEffect, or_iff_left hlong, Options.valued_given_iff tools.base64_output]
  constructor
  · rintro ⟨p, hp, letters, harg, hhead, value, heq, hvalue⟩
    refine ⟨p, hp, letters, harg, hhead, fun hnil => ?_, value, heq, hvalue⟩
    refine (hargs p.1 (Options.mem_of_mem_positions hp)).2.2 (Str.startsWith_iff.2 ⟨value, ?_⟩)
    rw [harg, heq, hnil]
    rfl
  · rintro ⟨p, hp, letters, harg, hhead, -, hvalue⟩
    exact ⟨p, hp, letters, harg, hhead, hvalue⟩

theorem unsafeInEffect_find_iff (h : isSafeFind (cmd0 :: args) = true) :
    UnsafeInEffect tools args .find ↔ Overlooked tools args .find := by
  refine iff_of_false ?_ id
  rintro ⟨word, hword, opt, hopt, heq⟩
  exact ne_of_isSafeFind h word (mem_of_mem_findWords hword) opt hopt heq

theorem unsafeInEffect_git_iff (h : isSafeGit (cmd0 :: args) = true) :
    UnsafeInEffect tools args .git ↔ Overlooked tools args .git := by
  obtain ⟨hoverride, hreadOnly⟩ := gitArguments_of_isSafeGit h
  have hargs := ne_of_gitSubcommandArgsAreReadOnly hreadOnly
  have hsubcommand : ¬∃ name ∈ unsafeGitNames,
      tools.git.Given (gitArguments false args).2 (.long name) := by
    rintro ⟨name, hname, hgiven⟩
    refine not_given_of_refused (fun arg harg => (hargs arg harg).1 name hname) ?_ hgiven
    intro htakes arg harg
    simp only [unsafeGitNames, List.mem_cons, List.not_mem_nil, or_false] at hname
    rcases hname with rfl | rfl | rfl | rfl | rfl
    · exact (hargs arg harg).2.1
    · rw [tools.git_flags.1] at htakes
      cases htakes
    · rw [tools.git_flags.2.1] at htakes
      cases htakes
    · exact (hargs arg harg).2.2
    · rw [tools.git_flags.2.2] at htakes
      cases htakes
  rw [UnsafeInEffect, or_iff_left hsubcommand]
  constructor
  · rintro ⟨arg, harg, hp | hp | hconfig⟩
    · exact ⟨arg, harg, .inl hp⟩
    · exact ⟨arg, harg, .inr hp⟩
    · rw [gitHasConfigOverrideGlobalOption, List.any_eq_false] at hoverride
      rw [gitHasConfigOverrideGlobalOption, List.any_cons, List.any_nil, Bool.or_false] at hconfig
      exact absurd hconfig
        (hoverride arg (List.mem_cons_of_mem cmd0 (mem_of_mem_gitArguments harg)))
  · rintro ⟨arg, harg, hp | hp⟩
    · exact ⟨arg, harg, .inl hp⟩
    · exact ⟨arg, harg, .inr (.inl hp)⟩

/-- In an accepted command no listed option is in effect, just where none is spelled in a way that
is overlooked. -/
theorem not_unsafeInEffect_iff (hname : Path.fileName cmd0 = some tool.name)
    (h : isSafeToCallWithExec pf (cmd0 :: args) = true) :
    ¬UnsafeInEffect tools args tool ↔ ¬Overlooked tools args tool := by
  rw [isSafeToCallWithExec_eq hname] at h
  cases tool with
  | rg => exact not_congr (unsafeInEffect_rg_iff h)
  | find => exact not_congr (unsafeInEffect_find_iff h)
  | base64 => exact not_congr (unsafeInEffect_base64_iff h)
  | git => exact not_congr (unsafeInEffect_git_iff h)

/-- The tools with some of their options. -/
def usualTools : Tools where
  rg := ⟨fun c => "ABCEMTdefgjmrt".toList.contains c, fun name =>
    ["--pre", "--hostname-bin", "--glob", "--max-count"].any fun opt => name = String.toList opt⟩
  base64 := ⟨fun c => "bio".toList.contains c, fun name =>
    ["--break", "--input", "--output"].any fun opt => name = String.toList opt⟩
  git := ⟨fun c => "GLOSUn".toList.contains c, fun name =>
    ["--output", "--exec", "--max-count"].any fun opt => name = String.toList opt⟩
  findOperands word :=
    if ["-name", "-type", "-newer"].any fun opt => word = String.toList opt then 1 else 0
  rg_flags := by decide
  base64_output := by decide
  git_flags := by decide

def noPlatform : Platform where
  linux := true
  windows := false
  treeSitter _ := none
  isSafeCommandWindows _ := false
  isDangerousCommandWindows _ := false

theorem not_unsafeInEffect_rg :
    isSafeToCallWithExec noPlatform ["rg", "-n", "x"] = true ∧
      ¬UnsafeInEffect usualTools ["-n", "x"] .rg := by
  have hname : Path.fileName "rg" = some Tool.rg.name := by decide
  have hsafe : isSafeToCallWithExec noPlatform ["rg", "-n", "x"] = true := by decide
  refine ⟨hsafe, (not_unsafeInEffect_iff hname hsafe).2 ?_⟩
  have hpositions : usualTools.rg.positions false ["-n", "x"] =
      [(("-n" : Str), some ("x" : Str)), (("x" : Str), none)] := by decide
  rintro ⟨p, hp, letters, harg, -, hlength, -⟩
  rw [hpositions] at hp
  rcases List.mem_pair.1 hp with rfl | rfl
  · obtain rfl := (List.cons.inj harg).2
    exact absurd hlength (by decide)
  · cases harg

/-- `rg -az x y` decompresses, `base64 -do out` writes a file and `git -p log` starts a pager. -/
theorem unsafeInEffect_of_overlooked :
    (isSafeToCallWithExec noPlatform ["rg", "-az", "x", "y"] = true ∧
      UnsafeInEffect usualTools ["-az", "x", "y"] .rg) ∧
    (isSafeToCallWithExec noPlatform ["base64", "-do", "out"] = true ∧
      UnsafeInEffect usualTools ["-do", "out"] .base64) ∧
    (isSafeToCallWithExec noPlatform ["git", "-p", "log"] = true ∧
      UnsafeInEffect usualTools ["-p", "log"] .git) := by
  refine ⟨⟨by decide, .inl ?_⟩, ⟨by decide, .inl ?_⟩, by decide, .inl ?_⟩
  · exact ⟨⟨.short 'z', none⟩, by decide, rfl⟩
  · exact ⟨⟨.short 'o', some "out"⟩, by decide, rfl⟩
  · exact ⟨"-p", by decide, .inl rfl⟩

end SheriMl.Shell
