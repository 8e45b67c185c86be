import SheriMl.ApplyPatch.Replace

/-!
# What a sought sequence is

`seek_sequence` against what its documentation says of it: the first match of the
strictest kind, at the end of the file where `eof` asks for it, and else from the
start on. The code has no such "else": with `eof` it only ever looks at the end, which
may lie before the start (`asPromised_iff`).
-/

namespace SheriMl.ApplyPatch

/-- How a line is compared with one of the pattern, the strictest way first. -/
inductive Strictness where
  | exact
  | trimEnd
  | trim
  | normalise
  deriving DecidableEq

namespace Strictness

/-- What is compared. -/
def norm : Strictness → Str → Str
  | exact => id
  | trimEnd => Str.trimEnd
  | trim => Str.trim
  | normalise => ApplyPatch.normalise

/-- The passes of the search, in their order. -/
def passes : List Strictness := [exact, trimEnd, trim, normalise]

def rank : Strictness → Nat
  | exact => 0
  | trimEnd => 1
  | trim => 2
  | normalise => 3

theorem mem_passes (level : Strictness) : level ∈ passes := by
  cases level with
  | _ => decide

theorem pairwise_passes : passes.Pairwise fun level level' => level.rank < level'.rank := by
  decide

theorem mem_before {before after : List Strictness} {level level' : Strictness}
    (h : passes = before ++ level :: after) : level' ∈ before ↔ level'.rank < level.rank := by
  have hpairwise := pairwise_passes
  rw [h, List.pairwise_append, List.pairwise_cons] at hpairwise
  obtain ⟨-, ⟨hafter, -⟩, hbefore⟩ := hpairwise
  refine ⟨fun hmem => hbefore level' hmem level List.mem_cons_self, fun hlt => ?_⟩
  have hmem := mem_passes level'
  rw [h, List.mem_append, List.mem_cons] at hmem
  rcases hmem with hmem | rfl | hmem
  · exact hmem
  · exact absurd hlt (Nat.lt_irrefl _)
  · exact absurd (hafter level' hmem) (Nat.lt_asymm hlt)

end Strictness

/-- The pattern stands at a position, by one kind of comparison. -/
def MatchesAt (level : Strictness) (lines pattern : List Str) (i : Nat) : Prop :=
  i + pattern.length ≤ lines.length ∧
    ((lines.drop i).take pattern.length).map level.norm = pattern.map level.norm

/-- By some kind of comparison. -/
def Matches (lines pattern : List Str) (i : Nat) : Prop :=
  ∃ level, MatchesAt level lines pattern i

instance (level : Strictness) (lines pattern : List Str) :
    DecidablePred (MatchesAt level lines pattern) := fun i => by
  unfold MatchesAt
  infer_instance

instance (lines pattern : List Str) : DecidablePred (Matches lines pattern) := fun i =>
  decidable_of_iff (∃ level ∈ Strictness.passes, MatchesAt level lines pattern i)
    ⟨fun ⟨level, _, h⟩ => ⟨level, h⟩, fun ⟨level, h⟩ => ⟨level, level.mem_passes, h⟩⟩

/-- Within a range of positions, the strictest kind of match there is, at the least position. -/
structure Best (lines pattern : List Str) (range : Nat → Prop) (i : Nat) : Prop where
  mem : range i
  strictest : ∃ level, MatchesAt level lines pattern i ∧
    (∀ j, range j → ∀ level' : Strictness, level'.rank < level.rank →
      ¬ MatchesAt level' lines pattern j) ∧
    ∀ j, range j → j < i → ¬ MatchesAt level lines pattern j

/-- The pattern ends the lines, not before the start. -/
def EndsLines (lines pattern : List Str) (start : Nat) : Prop :=
  ∃ i, start ≤ i ∧ i + pattern.length = lines.length ∧ Matches lines pattern i

/-- The positions searched: with `eof` the end alone, where the pattern is there. -/
def Searched (lines pattern : List Str) (start : Nat) (eof : Bool) (i : Nat) : Prop :=
  start ≤ i ∧ (eof = true → EndsLines lines pattern start → i + pattern.length = lines.length)

/-- What is said of `seek_sequence`. -/
structure AsPromised (lines pattern : List Str) (start : Nat) (eof : Bool) : Prop where
  within : ∀ i, seekSequence lines pattern start eof = some i →
    start ≤ i ∧ i + pattern.length ≤ lines.length
  best : ∀ i, seekSequence lines pattern start eof = some i →
    Best lines pattern (Searched lines pattern start eof) i
  endPreferred : eof = true → EndsLines lines pattern start →
    seekSequence lines pattern start eof = some (lines.length - pattern.length)
  stillFound : eof = true → (seekSequence lines pattern start false).isSome →
    (seekSequence lines pattern start eof).isSome

section Seek

variable {lines pattern : List Str} {start i j : Nat} {eof : Bool} {range : Nat → Prop}

def searchStart (lines pattern : List Str) (start : Nat) (eof : Bool) : Nat :=
  if eof then lines.length - pattern.length else start

/-- The positions from the beginning of the search on. -/
def From (lines pattern : List Str) (start : Nat) (eof : Bool) (i : Nat) : Prop :=
  searchStart lines pattern start eof ≤ i

theorem le_length (h : Matches lines pattern i) : i + pattern.length ≤ lines.length :=
  let ⟨_, hle, _⟩ := h
  hle

/-- One pass finds the least match of its kind. -/
theorem seekWith_eq_some {level : Strictness} (hlen : pattern.length ≤ lines.length) {s : Nat} :
    seekWith level.norm lines pattern (List.range' s (lines.length - pattern.length + 1 - s)) =
        some i ↔
      s ≤ i ∧ MatchesAt level lines pattern i ∧
        ∀ j, s ≤ j → j < i → ¬ MatchesAt level lines pattern j := by
  unfold seekWith MatchesAt
  rw [List.find?_range'_eq_some, List.mem_range'_1, decide_eq_true_eq]
  constructor
  · rintro ⟨hmatch, ⟨hs, hi⟩, hleast⟩
    refine ⟨hs, ⟨by omega, hmatch⟩, fun j hj hji hm => ?_⟩
    have hno := hleast j hj hji
    rw [decide_eq_true hm.2] at hno
    cases hno
  · rintro ⟨hs, ⟨hi, hmatch⟩, hleast⟩
    refine ⟨hmatch, ⟨hs, by omega⟩, fun j hj hji => ?_⟩
    rw [Bool.not_eq_true', decide_eq_false_iff_not]
    exact fun hm => hleast j hj hji ⟨by omega, hm⟩

theorem seekWith_eq_none {level : Strictness} (hlen : pattern.length ≤ lines.length) {s : Nat} :
    seekWith level.norm lines pattern (List.range' s (lines.length - pattern.length + 1 - s)) =
        none ↔ ∀ j, s ≤ j → ¬ MatchesAt level lines pattern j := by
  unfold seekWith MatchesAt
  rw [List.find?_range'_eq_none]
  constructor
  · rintro hnone j hj ⟨hle, hmatch⟩
    have hno := hnone j hj (by omega)
    rw [decide_eq_true hmatch] at hno
    cases hno
  · intro hnone j hj hlt
    rw [Bool.not_eq_true', decide_eq_false_iff_not]
    exact fun hm => hnone j hj ⟨by omega, hm⟩

/-- The passes, one after the other. -/
theorem seekSequence_eq (hp : pattern ≠ []) (hlen : pattern.length ≤ lines.length) :
    seekSequence lines pattern start eof = Strictness.passes.findSome? fun level =>
      seekWith level.norm lines pattern (List.range' (searchStart lines pattern start eof)
        (lines.length - pattern.length + 1 - searchStart lines pattern start eof)) := by
  unfold seekSequence
  rw [if_neg (by simpa using hp), if_neg (by omega)]
  simp only [Strictness.passes, List.findSome?_cons, List.findSome?_nil, searchStart,
    Strictness.norm]
  cases seekWith id lines pattern _ with
  | some i => rfl
  | none =>
    cases seekWith Str.trimEnd lines pattern _ with
    | some i => rfl
    | none =>
      cases seekWith Str.trim lines pattern _ with
      | some i => rfl
      | none =>
        cases seekWith normalise lines pattern _ with
        | some i => rfl
        | none => rfl

/-- A found position is the best from the beginning of the search on. -/
theorem best_of_seekSequence (hp : pattern ≠ [])
    (h : seekSequence lines pattern start eof = some i) :
    Best lines pattern (From lines pattern start eof) i := by
  have hlen : pattern.length ≤ lines.length := by
    have hbounds := (seekSequence_bounds hp h).1
    omega
  rw [seekSequence_eq hp hlen, List.findSome?_eq_some_iff] at h
  obtain ⟨before, level, after, hpasses, hfound, hnone⟩ := h
  obtain ⟨hfrom, hmatch, hleast⟩ := (seekWith_eq_some hlen).1 hfound
  refine ⟨hfrom, level, hmatch, fun j hj level' hlt => ?_, hleast⟩
  exact (seekWith_eq_none hlen).1 (hnone level' ((Strictness.mem_before hpasses).2 hlt)) j hj

/-- Nothing is found just where nothing matches. -/
theorem seekSequence_eq_none_iff (hp : pattern ≠ []) :
    seekSequence lines pattern start eof = none ↔
      ∀ j, From lines pattern start eof j → ¬ Matches lines pattern j := by
  by_cases hlen : pattern.length ≤ lines.length
  · rw [seekSequence_eq hp hlen, List.findSome?_eq_none_iff]
    constructor
    · rintro hnone j hj ⟨level, hmatch⟩
      exact (seekWith_eq_none hlen).1 (hnone level level.mem_passes) j hj hmatch
    · intro hnone level _
      exact (seekWith_eq_none hlen).2 fun j hj hmatch => hnone j hj ⟨level, hmatch⟩
  · refine iff_of_true ?_ fun j _ hmatch => hlen ?_
    · unfold seekSequence
      rw [if_neg (by simpa using hp), if_pos (by omega)]
    · have hle := le_length hmatch
      omega

theorem exists_seekSequence (start : Nat) (eof : Bool) (hp : pattern ≠ [])
    (hfrom : From lines pattern start eof j)
    (hmatch : Matches lines pattern j) : ∃ i, seekSequence lines pattern start eof = some i := by
  rw [← Option.isSome_iff_exists, Option.isSome_iff_ne_none]
  exact fun hnone => (seekSequence_eq_none_iff hp).1 hnone j hfrom hmatch

/-- With `eof`, a found position is the end. -/
theorem eq_end_of_seekSequence (hp : pattern ≠ [])
    (h : seekSequence lines pattern start true = some i) :
    i = lines.length - pattern.length := by
  have hend := (seekSequence_bounds hp h).2.2 rfl
  omega

/-! ## When the promise is kept -/

/-- An empty pattern is asked for within the lines, and with `eof` at their end. Another is
not asked for with `eof`, or stands at the end after the start, or nowhere from the start or
the end on. -/
def Kept (lines pattern : List Str) (start : Nat) (eof : Bool) : Prop :=
  if pattern = [] then start ≤ lines.length ∧ (eof = true → start = lines.length)
  else eof = true → EndsLines lines pattern start ∨
    ∀ j, min start (lines.length - pattern.length) ≤ j → ¬ Matches lines pattern j

theorem matchesAt_nil {level : Strictness} (h : i ≤ lines.length) : MatchesAt level lines [] i :=
  ⟨h, by simp⟩

theorem matches_end (h : EndsLines lines pattern start) :
    start ≤ lines.length - pattern.length ∧
      Matches lines pattern (lines.length - pattern.length) := by
  obtain ⟨i, hstart, hend, hmatch⟩ := h
  have hi : i = lines.length - pattern.length := by omega
  subst hi
  exact ⟨hstart, hmatch⟩

/-- An empty pattern is found where the search starts. -/
theorem asPromised_nil_iff : AsPromised lines [] start eof ↔ Kept lines [] start eof := by
  rw [Kept, if_pos rfl]
  constructor
  · intro h
    have hstart := (h.within start seekSequence_nil).2
    rw [List.length_nil, Nat.add_zero] at hstart
    refine ⟨hstart, fun heof => ?_⟩
    have hends : EndsLines lines [] start :=
      ⟨lines.length, hstart, by simp, .exact, matchesAt_nil (Nat.le_refl _)⟩
    have hend := h.endPreferred heof hends
    rw [seekSequence_nil, List.length_nil, Nat.sub_zero] at hend
    exact Option.some.inj hend
  · rintro ⟨hstart, heof⟩
    refine ⟨fun i hi => ?_, fun i hi => ?_, fun htrue _ => ?_, fun _ _ => rfl⟩
    · rw [seekSequence_nil] at hi
      cases hi
      exact ⟨Nat.le_refl _, hstart⟩
    · rw [seekSequence_nil] at hi
      cases hi
      refine ⟨⟨Nat.le_refl _, fun htrue _ => heof htrue⟩, .exact, matchesAt_nil hstart,
        fun _ _ level' hlt => absurd hlt (Nat.not_lt_zero _),
        fun j hj hlt => absurd hlt (Nat.not_lt_of_le hj.1)⟩
    · rw [seekSequence_nil, heof htrue]
      rfl

/-- Without `eof` the promise is kept. -/
theorem asPromised_false (hp : pattern ≠ []) : AsPromised lines pattern start false := by
  refine ⟨fun i hi => ?_, fun i hi => ?_, fun heof => (by cases heof), fun heof => (by cases heof)⟩
  · obtain ⟨hle, hstart, -⟩ := seekSequence_bounds hp hi
    exact ⟨hstart rfl, hle⟩
  · obtain ⟨hfrom, level, hmatch, hstrict, hleast⟩ := best_of_seekSequence hp hi
    exact ⟨⟨hfrom, fun heof => by cases heof⟩, level, hmatch, fun j hj => hstrict j hj.1,
      fun j hj => hleast j hj.1⟩

/-- With `eof`, just where the end is wanted, or nothing is there to be found. -/
theorem asPromised_true_iff (hp : pattern ≠ []) :
    AsPromised lines pattern start true ↔ Kept lines pattern start true := by
  rw [Kept, if_neg hp]
  constructor
  · intro h _
    by_cases hend : Matches lines pattern (lines.length - pattern.length)
    · obtain ⟨i, hi⟩ := exists_seekSequence start true hp (Nat.le_refl _) hend
      obtain ⟨hstart, hle⟩ := h.within i hi
      have hiend := eq_end_of_seekSequence hp hi
      subst hiend
      exact .inl ⟨_, hstart, by omega, hend⟩
    · right
      -- at the end there is nothing, so nothing is found, also from the start on
      have hnone : seekSequence lines pattern start true = none := by
        refine (seekSequence_eq_none_iff hp).2 fun j hj hmatch => hend ?_
        have hle := le_length hmatch
        have hj' : lines.length - pattern.length ≤ j := hj
        have hjend : j = lines.length - pattern.length := by omega
        rwa [← hjend]
      have hfalse : seekSequence lines pattern start false = none := by
        by_contra hsome
        have hfound := h.stillFound rfl (Option.isSome_iff_ne_none.2 hsome)
        rw [hnone] at hfound
        cases hfound
      intro j hj
      rcases Nat.le_total start (lines.length - pattern.length) with hle | hle
      · rw [Nat.min_eq_left hle] at hj
        exact (seekSequence_eq_none_iff hp).1 hfalse j hj
      · rw [Nat.min_eq_right hle] at hj
        exact (seekSequence_eq_none_iff hp).1 hnone j hj
  · intro h
    rcases h rfl with hends | hnothing
    · obtain ⟨hstart, hmatch⟩ := matches_end hends
      obtain ⟨i, hi⟩ := exists_seekSequence start true hp (Nat.le_refl _) hmatch
      have hiend := eq_end_of_seekSequence hp hi
      subst hiend
      have hle := le_length hmatch
      refine ⟨fun j hj => ?_, fun j hj => ?_, fun _ _ => hi, fun _ _ => by rw [hi]; rfl⟩
      · rw [hi] at hj
        cases hj
        exact ⟨hstart, hle⟩
      · rw [hi] at hj
        cases hj
        obtain ⟨-, level, hlevel, hstrict, hleast⟩ := best_of_seekSequence hp hi
        -- the end is the only position searched
        have honly : ∀ j, Searched lines pattern start true j →
            From lines pattern start true j := by
          intro j hj
          have hjend := hj.2 rfl hends
          show lines.length - pattern.length ≤ j
          omega
        exact ⟨⟨hstart, fun _ _ => by omega⟩, level, hlevel,
          fun j hj => hstrict j (honly j hj), fun j hj => hleast j (honly j hj)⟩
    · have htrue : seekSequence lines pattern start true = none := by
        refine (seekSequence_eq_none_iff hp).2 fun j hj => hnothing j ?_
        exact Nat.le_trans (Nat.min_le_right _ _) hj
      have hfalse : seekSequence lines pattern start false = none := by
        refine (seekSequence_eq_none_iff hp).2 fun j hj => hnothing j ?_
        exact Nat.le_trans (Nat.min_le_left _ _) hj
      refine ⟨fun j hj => ?_, fun j hj => ?_, fun _ hends => ?_, fun _ hsome => ?_⟩
      · rw [htrue] at hj
        cases hj
      · rw [htrue] at hj
        cases hj
      · obtain ⟨j, hj, -, hmatch⟩ := hends
        exact absurd hmatch (hnothing j (Nat.le_trans (Nat.min_le_left _ _) hj))
      · rw [hfalse] at hsome
        cases hsome

/-- `seek_sequence` does what is said of it just where it is not made to give up a match
before the end, or to go back before the start. -/
theorem asPromised_iff : AsPromised lines pattern start eof ↔ Kept lines pattern start eof := by
  by_cases hp : pattern = []
  · subst hp
    exact asPromised_nil_iff
  · cases eof with
    | true => exact asPromised_true_iff hp
    | false =>
      refine iff_of_true (asPromised_false hp) ?_
      rw [Kept, if_neg hp]
      intro heof
      cases heof

/-- The first of two lines, asked for at the end of the file: found without `eof` only. -/
theorem not_asPromised_eof : ¬ AsPromised ["a", "b"] ["a"] 0 true := by
  intro h
  have hfound := h.stillFound rfl (by decide)
  exact absurd hfound (by decide)

end Seek

end SheriMl.ApplyPatch
