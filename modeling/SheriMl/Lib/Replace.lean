import SheriMl.Lib.ByteRange

/-!
# Finding and replacing a text

`str::find` gives the first place in a text at which a pattern begins (`findStr_eq_some`).
`str::replace` goes through a text once, from left to right. A part of the text in which the
pattern does not begin is left as it is (`replace_append`).
-/

namespace Str

open List

/-- The walk of `str::replace`, with how many characters of a pattern are still to be passed. -/
def replaceFrom (pattern new : Str) : Nat → Str → Str
  | _, [] => []
  | skip + 1, _ :: s => replaceFrom pattern new skip s
  | 0, c :: s =>
    if pattern.isPrefixOf (c :: s) then new ++ replaceFrom pattern new (pattern.length - 1) s
    else c :: replaceFrom pattern new 0 s

/-- `str::replace`, of a pattern that is not empty. -/
def replace (pattern new s : Str) : Str := replaceFrom pattern new 0 s

/-- `str::find` -/
def findStr (pattern : Str) : Str → Option Nat
  | [] => if pattern = [] then some 0 else none
  | c :: s =>
    if pattern.isPrefixOf (c :: s) then some 0 else (findStr pattern s).map (c.utf8Size + ·)

/-- The pattern begins in a text that another one follows. -/
def BeginsIn (pattern s rest : Str) : Prop := ∃ t, t ≠ [] ∧ t <:+ s ∧ pattern <+: t ++ rest

instance (pattern s rest : Str) : Decidable (BeginsIn pattern s rest) :=
  decidable_of_iff (∃ t ∈ s.tails, t ≠ [] ∧ pattern <+: t ++ rest) <| by
    simp only [BeginsIn, mem_tails]
    exact exists_congr fun t => and_left_comm

variable {pattern new s rest : Str} {c : Char}

theorem beginsIn_cons :
    BeginsIn pattern (c :: s) rest ↔ pattern <+: c :: (s ++ rest) ∨ BeginsIn pattern s rest := by
  constructor
  · rintro ⟨t, hne, hsuffix, hpre⟩
    rcases suffix_cons_iff.1 hsuffix with rfl | hsuffix
    · exact .inl hpre
    · exact .inr ⟨t, hne, hsuffix, hpre⟩
  · rintro (hpre | ⟨t, hne, hsuffix, hpre⟩)
    · exact ⟨c :: s, cons_ne_nil c s, suffix_rfl, hpre⟩
    · exact ⟨t, hne, hsuffix.trans (suffix_cons c s), hpre⟩

@[simp] theorem not_beginsIn_nil : ¬ BeginsIn pattern [] rest := by
  rintro ⟨t, hne, hsuffix, -⟩
  exact hne (suffix_nil.1 hsuffix)

/-- What is found is the first place. -/
theorem findStr_eq_some {n : Nat} (h : findStr pattern s = some n) :
    ∃ before rest, s = before ++ rest ∧ utf8Size before = n ∧ pattern <+: rest ∧
      ¬ BeginsIn pattern before rest := by
  induction s generalizing n with
  | nil =>
    unfold findStr at h
    split at h
    · next hnil =>
      obtain rfl := Option.some.inj h
      exact ⟨[], [], rfl, rfl, hnil ▸ nil_prefix, not_beginsIn_nil⟩
    · cases h
  | cons c s ih =>
    unfold findStr at h
    split at h
    · next hpre =>
      obtain rfl := Option.some.inj h
      exact ⟨[], c :: s, rfl, rfl, isPrefixOf_iff_prefix.1 hpre, not_beginsIn_nil⟩
    · next hpre =>
      obtain ⟨m, hm, rfl⟩ := Option.map_eq_some_iff.1 h
      obtain ⟨before, rest, rfl, rfl, hrest, hnot⟩ := ih hm
      refine ⟨c :: before, rest, rfl, rfl, hrest, fun hbegins => ?_⟩
      rcases beginsIn_cons.1 hbegins with hhere | hlater
      · exact hpre (List.isPrefixOf_iff_prefix.2 hhere)
      · exact hnot hlater

/-- A place at which the pattern begins is not before the one that is found. -/
theorem findStr_le (before : Str) (h : pattern <+: rest) :
    ∃ n, findStr pattern (before ++ rest) = some n ∧ n ≤ utf8Size before := by
  induction before with
  | nil =>
    refine ⟨0, ?_, Nat.le_refl 0⟩
    cases rest with
    | nil => rw [append_nil, findStr, if_pos (prefix_nil.1 h)]
    | cons c rest =>
      rw [nil_append, findStr, if_pos (List.isPrefixOf_iff_prefix.2 h)]
  | cons c before ih =>
    rw [cons_append, findStr]
    split
    · exact ⟨0, rfl, Nat.zero_le _⟩
    · obtain ⟨n, hfound, hle⟩ := ih
      exact ⟨c.utf8Size + n, by rw [hfound]; rfl, Nat.add_le_add_left hle _⟩

/-! ## Replacing -/

theorem replaceFrom_length (passed rest : Str) :
    replaceFrom pattern new passed.length (passed ++ rest) = replace pattern new rest := by
  induction passed with
  | nil => rfl
  | cons c passed ih => exact ih

theorem replace_pattern_append (h : pattern ≠ []) (rest : Str) :
    replace pattern new (pattern ++ rest) = new ++ replace pattern new rest := by
  cases pattern with
  | nil => exact absurd rfl h
  | cons c pattern =>
    have hpre : (c :: pattern).isPrefixOf (c :: (pattern ++ rest)) = true :=
      isPrefixOf_iff_prefix.2 (prefix_append (c :: pattern) rest)
    rw [replace, cons_append, replaceFrom, if_pos hpre]
    exact congrArg (new ++ ·) (replaceFrom_length pattern rest)

theorem replace_append (h : ¬ BeginsIn pattern s rest) :
    replace pattern new (s ++ rest) = s ++ replace pattern new rest := by
  induction s with
  | nil => rfl
  | cons c s ih =>
    obtain ⟨hpre, htail⟩ := not_or.1 (mt beginsIn_cons.2 h)
    have hhead : ¬ pattern.isPrefixOf (c :: (s ++ rest)) = true :=
      mt isPrefixOf_iff_prefix.1 hpre
    rw [replace, cons_append, replaceFrom, if_neg hhead]
    exact congrArg (c :: ·) (ih htail)

theorem replace_of_not_contains (h : contains s pattern = false) :
    replace pattern new s = s := by
  have hnot : ¬ BeginsIn pattern s [] := by
    rintro ⟨t, -, hsuffix, hpre⟩
    rw [append_nil] at hpre
    have hcontains : contains s pattern = true :=
      contains_iff.2 (hpre.isInfix.trans hsuffix.isInfix)
    rw [h] at hcontains
    cases hcontains
  have happend : replace pattern new (s ++ []) = s ++ replace pattern new [] :=
    replace_append hnot
  rw [append_nil] at happend
  exact happend.trans (append_nil s)

example : replace "ab" "c" "abab a" = "cc a".toList := by decide

end Str
