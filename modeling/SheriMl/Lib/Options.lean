import SheriMl.Lib.Lines

/-!
# Command-line options

What a tool makes of its arguments, given which of its options take a value: letters in clusters,
values that are attached, follow an equals sign or are the next argument, and `--`, which ends the
options. `flag_given_iff`, `valued_given_iff` and `exists_of_long_given` say how an option can have
been written.
-/

namespace Options

open List

structure Syntax where
  letterTakesValue : Char → Bool
  /-- of a long option, with its dashes -/
  nameTakesValue : Str → Bool

inductive Opt where
  | short (letter : Char)
  | long (name : Str)
  deriving DecidableEq

structure Occurrence where
  option : Opt
  value : Option Str
  deriving DecidableEq

namespace Syntax

variable (stx : Syntax)

/-- The options of a cluster, up to the first that takes a value: that is the rest, or else the
next argument. Without a value the tool refuses the option. -/
def cluster : Str → Option Str → List Occurrence
  | [], _ => []
  | c :: rest, next =>
    if stx.letterTakesValue c then
      if rest.isEmpty then (next.map fun value => ⟨.short c, some value⟩).toList
      else [⟨.short c, some rest⟩]
    else ⟨.short c, none⟩ :: cluster rest next

/-- The options of an argument that is not a value. -/
def occurrences (arg : Str) (next : Option Str) : List Occurrence :=
  match arg with
  | '-' :: '-' :: _ =>
    match Str.splitOnce '=' arg with
    | some (name, value) => if stx.nameTakesValue name then [⟨.long name, some value⟩] else []
    | none =>
      if stx.nameTakesValue arg then (next.map fun value => ⟨.long arg, some value⟩).toList
      else [⟨.long arg, none⟩]
  | '-' :: letters => stx.cluster letters next
  | _ => []

/-- The letters of a cluster that take no value. -/
def flags (letters : Str) : Str := letters.takeWhile fun c => !stx.letterTakesValue c

/-- The next argument is a value. -/
def takesNext (arg : Str) : Bool :=
  match arg with
  | '-' :: '-' :: _ => (Str.splitOnce '=' arg).isNone && stx.nameTakesValue arg
  | '-' :: letters => (letters.drop (stx.flags letters).length).length = 1
  | _ => false

/-- The arguments that are not values, each with the next one, up to `--`. -/
def positions : Bool → List Str → List (Str × Option Str)
  | _, [] => []
  | true, _ :: args => positions false args
  | false, arg :: args =>
    if arg = "--" then [] else (arg, args.head?) :: positions (stx.takesNext arg) args

def scan (args : List Str) : List Occurrence :=
  (stx.positions false args).flatMap fun p => stx.occurrences p.1 p.2

def Given (args : List Str) (option : Opt) : Prop := ∃ o ∈ stx.scan args, o.option = option

end Syntax

variable {stx : Syntax} {letters arg name : Str} {next : Option Str} {args : List Str} {c : Char}
  {o : Occurrence} {skip : Bool}

theorem mem_of_mem_positions {p : Str × Option Str} (h : p ∈ stx.positions skip args) :
    p.1 ∈ args := by
  induction args generalizing skip with
  | nil => simp [Syntax.positions] at h
  | cons arg args ih =>
    cases skip with
    | true => exact mem_cons_of_mem arg (ih h)
    | false =>
      rw [Syntax.positions] at h
      split at h
      · cases h
      · rcases mem_cons.1 h with rfl | h
        · exact mem_cons_self
        · exact mem_cons_of_mem arg (ih h)

theorem exists_letter_of_mem_cluster (h : o ∈ stx.cluster letters next) :
    ∃ c, o.option = .short c := by
  induction letters with
  | nil => cases h
  | cons d rest ih =>
    rw [Syntax.cluster] at h
    split at h
    · split at h
      · obtain ⟨value, -, rfl⟩ := Option.map_eq_some_iff.1 (Option.mem_toList.1 h)
        exact ⟨d, rfl⟩
      · rw [mem_singleton.1 h]
        exact ⟨d, rfl⟩
    · rcases mem_cons.1 h with rfl | h
      · exact ⟨d, rfl⟩
      · exact ih h

/-- A letter without a value stands before those with one. -/
theorem flag_mem_cluster_iff (hc : stx.letterTakesValue c = false) :
    (∃ o ∈ stx.cluster letters next, o.option = .short c) ↔ c ∈ stx.flags letters := by
  induction letters with
  | nil => simp [Syntax.cluster, Syntax.flags]
  | cons d rest ih =>
    rw [Syntax.cluster, Syntax.flags]
    cases hd : stx.letterTakesValue d with
    | true =>
      have hne : d ≠ c := by
        rintro rfl
        rw [hd] at hc
        cases hc
      simp only [if_true, hd, Bool.not_true, Bool.false_eq_true, not_false_eq_true,
        takeWhile_cons_of_neg, not_mem_nil, iff_false]
      rintro ⟨o, ho, hoption⟩
      split at ho
      · obtain ⟨value, -, rfl⟩ := Option.map_eq_some_iff.1 (Option.mem_toList.1 ho)
        exact hne (Opt.short.inj hoption)
      · rw [mem_singleton.1 ho] at hoption
        exact hne (Opt.short.inj hoption)
    | false =>
      simp only [Bool.false_eq_true, if_false, hd, Bool.not_false, takeWhile_cons_of_pos,
        mem_cons, exists_eq_or_imp]
      rw [ih, Opt.short.injEq, Syntax.flags, eq_comm]

theorem valued_mem_cluster_iff (hc : stx.letterTakesValue c = true) :
    (∃ o ∈ stx.cluster letters next, o.option = .short c) ↔
      ∃ value, letters = stx.flags letters ++ c :: value ∧ (value ≠ [] ∨ next ≠ none) := by
  induction letters with
  | nil => simp [Syntax.cluster]
  | cons d rest ih =>
    rw [Syntax.cluster, Syntax.flags]
    cases hd : stx.letterTakesValue d with
    | true =>
      simp only [if_true, hd, Bool.not_true, Bool.false_eq_true, not_false_eq_true,
        takeWhile_cons_of_neg, nil_append]
      constructor
      · rintro ⟨o, ho, hoption⟩
        split at ho
        next hrest =>
          obtain ⟨value, hnext, rfl⟩ := Option.map_eq_some_iff.1 (Option.mem_toList.1 ho)
          refine ⟨rest, by rw [Opt.short.inj hoption], .inr ?_⟩
          rw [hnext]
          nofun
        next hrest =>
          rw [mem_singleton.1 ho] at hoption
          refine ⟨rest, by rw [Opt.short.inj hoption], .inl fun hnil => hrest ?_⟩
          exact List.isEmpty_iff.2 hnil
      · rintro ⟨value, heq, hvalue⟩
        obtain ⟨rfl, rfl⟩ := List.cons.inj heq
        split
        next hrest =>
          rcases hvalue with hne | hnext
          · exact absurd (List.isEmpty_iff.1 hrest) hne
          · obtain ⟨value, hvalue⟩ := Option.ne_none_iff_exists'.1 hnext
            rw [hvalue]
            exact ⟨_, mem_singleton_self _, rfl⟩
        next => exact ⟨_, mem_singleton_self _, rfl⟩
    | false =>
      have hne : d ≠ c := by
        rintro rfl
        rw [hd] at hc
        cases hc
      simp only [Bool.false_eq_true, if_false, hd, Bool.not_false, takeWhile_cons_of_pos,
        mem_cons, exists_eq_or_imp, Opt.short.injEq, hne, false_or, cons_append,
        List.cons.injEq, true_and]
      exact ih

theorem short_mem_occurrences_iff :
    (∃ o ∈ stx.occurrences arg next, o.option = .short c) ↔
      ∃ letters, arg = '-' :: letters ∧ letters.head? ≠ some '-' ∧
        ∃ o ∈ stx.cluster letters next, o.option = .short c := by
  unfold Syntax.occurrences
  split
  next rest =>
    have hcluster : ¬∃ letters : Str, '-' :: '-' :: rest = '-' :: letters ∧
        letters.head? ≠ some '-' ∧ ∃ o ∈ stx.cluster letters next, o.option = .short c := by
      rintro ⟨letters, heq, hhead, -⟩
      obtain ⟨-, rfl⟩ := List.cons.inj heq
      exact hhead rfl
    refine iff_of_false ?_ hcluster
    rintro ⟨o, ho, hoption⟩
    have hlong : ∃ name, o.option = .long name := by
      split at ho
      · split at ho
        · rw [mem_singleton.1 ho]
          exact ⟨_, rfl⟩
        · cases ho
      · split at ho
        · obtain ⟨value, -, rfl⟩ := Option.map_eq_some_iff.1 (Option.mem_toList.1 ho)
          exact ⟨_, rfl⟩
        · rw [mem_singleton.1 ho]
          exact ⟨_, rfl⟩
    obtain ⟨name, hname⟩ := hlong
    rw [hoption] at hname
    cases hname
  next letters hletters =>
    have hhead : letters.head? ≠ some '-' := by
      intro hdash
      obtain ⟨rest, rfl⟩ := List.head?_eq_some_iff.1 hdash
      exact hletters rest rfl
    constructor
    · intro h
      exact ⟨letters, rfl, hhead, h⟩
    · rintro ⟨letters', heq, -, h⟩
      obtain ⟨-, rfl⟩ := List.cons.inj heq
      exact h
  next hnone hcluster =>
    refine iff_of_false (by simp) ?_
    rintro ⟨letters, rfl, -⟩
    exact hcluster letters rfl

/-- A long option is written out, or with a value behind an equals sign. -/
theorem long_mem_occurrences (h : o ∈ stx.occurrences arg next) (hoption : o.option = .long name) :
    arg = name ∨ stx.nameTakesValue name = true ∧ ∃ value, arg = name ++ '=' :: value := by
  unfold Syntax.occurrences at h
  split at h
  · split at h
    next before value hsplit =>
      split at h
      next htakes =>
        rw [mem_singleton.1 h] at hoption
        obtain rfl := Opt.long.inj hoption
        exact .inr ⟨htakes, value, (Str.splitOnce_eq_some.1 hsplit).1⟩
      next => cases h
    next =>
      split at h
      · obtain ⟨value, -, rfl⟩ := Option.map_eq_some_iff.1 (Option.mem_toList.1 h)
        exact .inl (Opt.long.inj hoption)
      · rw [mem_singleton.1 h] at hoption
        exact .inl (Opt.long.inj hoption)
  · obtain ⟨c, hc⟩ := exists_letter_of_mem_cluster h
    rw [hoption] at hc
    cases hc
  · cases h

theorem given_iff {option : Opt} : stx.Given args option ↔
    ∃ p ∈ stx.positions false args, ∃ o ∈ stx.occurrences p.1 p.2, o.option = option := by
  constructor
  · rintro ⟨o, ho, hoption⟩
    obtain ⟨p, hp, ho⟩ := mem_flatMap.1 ho
    exact ⟨p, hp, o, ho, hoption⟩
  · rintro ⟨p, hp, o, ho, hoption⟩
    exact ⟨o, mem_flatMap.2 ⟨p, hp, ho⟩, hoption⟩

/-- A letter without a value is given in a cluster, before any letter with one. -/
theorem flag_given_iff (hc : stx.letterTakesValue c = false) :
    stx.Given args (.short c) ↔ ∃ p ∈ stx.positions false args, ∃ letters,
      p.1 = '-' :: letters ∧ letters.head? ≠ some '-' ∧ c ∈ stx.flags letters := by
  simp only [given_iff, short_mem_occurrences_iff, flag_mem_cluster_iff hc]

/-- A letter with a value is given behind letters without one, the value behind it or next. -/
theorem valued_given_iff (hc : stx.letterTakesValue c = true) :
    stx.Given args (.short c) ↔ ∃ p ∈ stx.positions false args, ∃ letters,
      p.1 = '-' :: letters ∧ letters.head? ≠ some '-' ∧
        ∃ value, letters = stx.flags letters ++ c :: value ∧ (value ≠ [] ∨ p.2 ≠ none) := by
  simp only [given_iff, short_mem_occurrences_iff, valued_mem_cluster_iff hc]

theorem exists_of_long_given (h : stx.Given args (.long name)) : ∃ arg ∈ args,
    arg = name ∨ stx.nameTakesValue name = true ∧ ∃ value, arg = name ++ '=' :: value := by
  obtain ⟨p, hp, o, ho, hoption⟩ := given_iff.1 h
  exact ⟨p.1, mem_of_mem_positions hp, long_mem_occurrences ho hoption⟩

end Options
