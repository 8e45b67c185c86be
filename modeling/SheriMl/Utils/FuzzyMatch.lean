import Mathlib.Data.List.Flatten
import SheriMl.Lib.Str
import SheriMl.Lib.Subsequence

/-!
# Fuzzy matching

`utils/fuzzy-match`: the needle, lowered as one string, is looked for in the haystack, lowered
character by character. The two differ at a capital sigma that ends a word
(`correct_iff_finalSigma`).
-/

namespace SheriMl.FuzzyMatch

/-- Rust's Unicode tables, of which the case of sigma is used. -/
structure CaseTables where
  /-- `char::to_lowercase` -/
  lower : Char → Str
  cased : Char → Bool
  caseIgnorable : Char → Bool
  lower_sigma : lower 'Σ' = ['σ']
  lower_finalSigma : lower 'ς' = ['ς']
  eq_of_mem_lower : ∀ c, 'ς' ∈ lower c → c = 'ς'

variable (tables : CaseTables)

namespace CaseTables

def caseIgnorableThenCased (chars : Str) : Bool :=
  (chars.dropWhile tables.caseIgnorable).head?.any tables.cased

/-- A sigma between these, the characters before it from the last on, ends a word. -/
def isWordFinal (before after : Str) : Bool :=
  tables.caseIgnorableThenCased before && !tables.caseIgnorableThenCased after

def mapUppercaseSigma (before after : Str) : Char :=
  if tables.isWordFinal before after then 'ς' else 'σ'

/-- `str::to_lowercase` -/
def toLowercaseFrom : Str → Str → Str
  | _, [] => []
  | before, c :: after =>
    (if c = 'Σ' then [tables.mapUppercaseSigma before after] else tables.lower c) ++
      toLowercaseFrom (c :: before) after

def toLowercase (s : Str) : Str := tables.toLowercaseFrom [] s

end CaseTables

/-- `lowered_chars` and `lowered_to_orig_char_idx`. -/
def loweredChars (haystack : Str) : List (Char × Nat) :=
  haystack.zipIdx.flatMap fun p => (tables.lower p.1).map fun lc => (lc, p.2)

/-- For each character of the needle the next position from `cur` on that has it, and the index in
the haystack there. -/
def findFrom : Nat → List (Char × Nat) → Str → Option (List (Nat × Nat))
  | _, _, [] => some []
  | _, [], _ :: _ => none
  | cur, (lc, origIdx) :: lowered, nc :: needle =>
    if lc = nc then (findFrom (cur + 1) lowered needle).map ((cur, origIdx) :: ·)
    else findFrom (cur + 1) lowered (nc :: needle)

/-- The score of these positions, in arithmetic that wraps around: what the window from the first
character of the first hit to the last has beyond the needle, less 100 at the start. -/
def score (lowered : List (Char × Nat)) (loweredNeedle : Str) (hits : List (Nat × Nat)) : Int32 :=
  let firstLowerPos :=
    match hits.head? with
    | none => 0
    | some hit => (lowered.findIdx? fun p => p.2 = hit.2).getD 0
  let lastLowerPos := (hits.getLast?.map Prod.fst).getD firstLowerPos
  let window := Int32.ofNat lastLowerPos - Int32.ofNat firstLowerPos + 1 -
    Int32.ofNat loweredNeedle.length
  if firstLowerPos = 0 then max window 0 - 100 else max window 0

def fuzzyMatch (haystack needle : Str) : Option (List Nat × Int32) :=
  if needle.isEmpty then some ([], Int32.maxValue)
  else
    let lowered := loweredChars tables haystack
    let loweredNeedle := tables.toLowercase needle
    (findFrom 0 lowered loweredNeedle).map fun hits =>
      (Subsequence.ascending (hits.map Prod.snd), score lowered loweredNeedle hits)

def fuzzyIndices (haystack needle : Str) : Option (List Nat) :=
  (fuzzyMatch tables haystack needle).map fun p => Subsequence.ascending p.1

variable {tables} {haystack needle : Str}

/-! ## Lowering -/

namespace CaseTables

/-- Every sigma that ends a word as a final sigma. -/
def finalizeFrom (tables : CaseTables) : Str → Str → Str
  | _, [] => []
  | before, c :: after =>
    (if c = 'Σ' ∧ tables.isWordFinal before after = true then 'ς' else c) ::
      finalizeFrom tables (c :: before) after

def finalize (tables : CaseTables) (s : Str) : Str := tables.finalizeFrom [] s

/-- A capital sigma ends a word. -/
def HasFinalSigma (tables : CaseTables) (s : Str) : Prop :=
  ∃ before after, s = before ++ 'Σ' :: after ∧ tables.isWordFinal before.reverse after = true

/-- It occurs in order, character by character and up to case. -/
def OccursIn (tables : CaseTables) (needle haystack : Str) : Prop :=
  (needle.flatMap tables.lower).Sublist (haystack.flatMap tables.lower)

theorem toLowercaseFrom_eq (before s : Str) :
    tables.toLowercaseFrom before s = (tables.finalizeFrom before s).flatMap tables.lower := by
  induction s generalizing before with
  | nil => rfl
  | cons c after ih =>
    rw [toLowercaseFrom, finalizeFrom, List.flatMap_cons, ih]
    congr 1
    by_cases hc : c = 'Σ'
    · rw [if_pos hc, mapUppercaseSigma]
      cases hfinal : tables.isWordFinal before after with
      | true => rw [if_pos rfl, if_pos ⟨hc, rfl⟩, tables.lower_finalSigma]
      | false =>
        rw [if_neg Bool.false_ne_true, if_neg (fun h => Bool.false_ne_true h.2), hc,
          tables.lower_sigma]
    · rw [if_neg hc, if_neg (fun h => hc h.1)]

theorem toLowercase_eq (s : Str) :
    tables.toLowercase s = (tables.finalize s).flatMap tables.lower := toLowercaseFrom_eq [] s

/-- Only a final sigma has a final sigma when it is lowered. -/
theorem count_lower (c : Char) : (tables.lower c).count 'ς' = [c].count 'ς' := by
  by_cases hc : c = 'ς'
  · rw [hc, tables.lower_finalSigma]
  · rw [List.count_singleton, if_neg (by simpa using hc), List.count_eq_zero]
    exact fun hmem => hc (tables.eq_of_mem_lower c hmem)

theorem count_flatMap_lower (s : Str) : (s.flatMap tables.lower).count 'ς' = s.count 'ς' := by
  induction s with
  | nil => rfl
  | cons c s ih =>
    rw [List.flatMap_cons, List.count_append, ih, count_lower, ← List.count_append]
    rfl

theorem finalizeFrom_eq_self {before s : Str}
    (h : ∀ s₁ s₂, s = s₁ ++ 'Σ' :: s₂ → ¬tables.isWordFinal (s₁.reverse ++ before) s₂ = true) :
    tables.finalizeFrom before s = s := by
  induction s generalizing before with
  | nil => rfl
  | cons c after ih =>
    have hafter : tables.finalizeFrom (c :: before) after = after := by
      refine ih fun s₁ s₂ heq => ?_
      have hnot := h (c :: s₁) s₂ (by rw [heq, List.cons_append])
      rwa [List.reverse_cons, List.append_assoc, List.singleton_append] at hnot
    rw [finalizeFrom, hafter, if_neg]
    rintro ⟨rfl, hfinal⟩
    exact h [] after rfl hfinal

theorem finalize_eq_self (h : ¬tables.HasFinalSigma needle) : tables.finalize needle = needle := by
  refine finalizeFrom_eq_self fun s₁ s₂ heq hfinal => h ⟨s₁, s₂, heq, ?_⟩
  rwa [List.append_nil] at hfinal

theorem count_le_finalizeFrom (before s : Str) :
    s.count 'ς' ≤ (tables.finalizeFrom before s).count 'ς' := by
  induction s generalizing before with
  | nil => exact Nat.le_refl 0
  | cons c after ih =>
    rw [finalizeFrom]
    split
    next hfinal =>
      rw [hfinal.1, List.count_cons_self, List.count_cons_of_ne (by decide)]
      exact Nat.le_succ_of_le (ih _)
    next =>
      rw [List.count_cons, List.count_cons]
      exact Nat.add_le_add_right (ih _) _

theorem count_lt_finalizeFrom {before s₁ s₂ : Str}
    (h : tables.isWordFinal (s₁.reverse ++ before) s₂ = true) :
    (s₁ ++ 'Σ' :: s₂).count 'ς' < (tables.finalizeFrom before (s₁ ++ 'Σ' :: s₂)).count 'ς' := by
  induction s₁ generalizing before with
  | nil =>
    rw [List.nil_append, finalizeFrom, if_pos ⟨rfl, h⟩, List.count_cons_self,
      List.count_cons_of_ne (by decide)]
    exact Nat.lt_succ_of_le (count_le_finalizeFrom _ s₂)
  | cons c s₁ ih =>
    rw [List.reverse_cons, List.append_assoc, List.singleton_append] at h
    rw [List.cons_append, finalizeFrom]
    split
    next hfinal =>
      rw [hfinal.1] at h ⊢
      rw [List.count_cons_self, List.count_cons_of_ne (by decide)]
      exact Nat.lt_succ_of_lt (ih h)
    next =>
      rw [List.count_cons, List.count_cons]
      exact Nat.add_lt_add_right (ih h) _

/-- With a final sigma in the place of one of its characters it does not occur in itself. -/
theorem not_occursIn_finalize (h : tables.HasFinalSigma needle) :
    ¬tables.OccursIn (tables.finalize needle) needle := by
  obtain ⟨s₁, s₂, rfl, hfinal⟩ := h
  intro hoccurs
  have hle := hoccurs.count_le 'ς'
  rw [count_flatMap_lower, count_flatMap_lower] at hle
  have hlt : (s₁ ++ 'Σ' :: s₂).count 'ς' <
      (tables.finalizeFrom [] (s₁ ++ 'Σ' :: s₂)).count 'ς' :=
    count_lt_finalizeFrom (by rwa [List.append_nil])
  exact Nat.not_lt.2 hle hlt

theorem occursIn_of_sublist (h : needle.Sublist haystack) : tables.OccursIn needle haystack :=
  h.flatMap _

end CaseTables

/-! ## The scan -/

/-- What the characters at these indices are in lower case. -/
def expansions (tables : CaseTables) (haystack : Str) (indices : List Nat) : Str :=
  indices.flatMap fun i => (haystack[i]?.map tables.lower).getD []

theorem findFrom_eq_greedy (cur : Nat) (lowered : List (Char × Nat)) (needle : Str) :
    findFrom cur lowered needle =
      (Subsequence.greedy (fun p => p.1.1) (lowered.zipIdx cur) needle).map
        (List.map fun p => (p.2, p.1.2)) := by
  induction lowered generalizing cur needle with
  | nil => cases needle <;> rfl
  | cons p lowered ih =>
    cases needle with
    | nil => rfl
    | cons nc needle =>
      rw [findFrom, List.zipIdx_cons, Subsequence.greedy]
      split
      · rw [ih, Option.map_map, Option.map_map]
        rfl
      · exact ih _ _

theorem map_fst_loweredChars (haystack : Str) :
    (loweredChars tables haystack).map Prod.fst = haystack.flatMap tables.lower := by
  have hlower : ∀ p : Char × Nat, ((tables.lower p.1).map fun lc => (lc, p.2)).map Prod.fst =
      tables.lower p.1 := by
    intro p
    rw [List.map_map]
    exact List.map_id _
  rw [loweredChars, List.map_flatMap]
  simp only [hlower]
  rw [← List.flatMap_map, List.zipIdx_map_fst]

theorem map_zipIdx_loweredChars (haystack : Str) :
    ((loweredChars tables haystack).zipIdx.map fun p => p.1.1) = haystack.flatMap tables.lower := by
  rw [← map_fst_loweredChars]
  nth_rewrite 2 [← List.zipIdx_map_fst 0 (loweredChars tables haystack)]
  rw [List.map_map]
  rfl

theorem exists_findFrom_iff (haystack needle : Str) :
    (∃ hits, findFrom 0 (loweredChars tables haystack) needle = some hits) ↔
      needle.Sublist (haystack.flatMap tables.lower) := by
  rw [← map_zipIdx_loweredChars, ← Subsequence.exists_greedy_iff, findFrom_eq_greedy]
  constructor
  · rintro ⟨hits, h⟩
    obtain ⟨hits', h, -⟩ := Option.map_eq_some_iff.1 h
    exact ⟨hits', h⟩
  · rintro ⟨hits, h⟩
    exact ⟨hits.map fun p => (p.2, p.1.2), by rw [h]; rfl⟩

/-- The characters found, with their indices, are a subsequence of the lowered ones. -/
theorem exists_of_findFrom {lowered : List (Char × Nat)} {hits : List (Nat × Nat)}
    (h : findFrom 0 lowered needle = some hits) : ∃ found : List (Char × Nat),
      found.Sublist lowered ∧ found.map Prod.fst = needle ∧
        found.map Prod.snd = hits.map Prod.snd := by
  rw [findFrom_eq_greedy] at h
  obtain ⟨pairs, hgreedy, rfl⟩ := Option.map_eq_some_iff.1 h
  obtain ⟨hsub, hkeys⟩ := Subsequence.sublist_of_greedy hgreedy
  refine ⟨pairs.map Prod.fst, ?_, ?_, ?_⟩
  · have hfst := hsub.map Prod.fst
    rwa [List.zipIdx_map_fst] at hfst
  · rw [List.map_map]
    exact hkeys
  · rw [List.map_map, List.map_map]
    rfl

theorem expansions_eq (haystack : Str) (indices : List Nat) : expansions tables haystack indices =
    (indices.filterMap fun i => haystack[i]?.map fun c => (c, i)).flatMap fun p =>
      tables.lower p.1 := by
  rw [expansions]
  induction indices with
  | nil => rfl
  | cons i indices ih =>
    rw [List.flatMap_cons, ih, List.filterMap_cons]
    cases haystack[i]? <;> rfl

theorem filter_loweredChars {indices : List Nat} (h : indices.Pairwise (· < ·)) :
    ((loweredChars tables haystack).filter fun p => p.2 ∈ indices).map Prod.fst =
      expansions tables haystack indices := by
  have hfilter : ∀ l : List (Char × Nat),
      ((l.flatMap fun p => (tables.lower p.1).map fun lc => (lc, p.2)).filter
        fun p => p.2 ∈ indices).map Prod.fst =
      (l.filter fun p => p.2 ∈ indices).flatMap fun p => tables.lower p.1 := by
    intro l
    induction l with
    | nil => rfl
    | cons p l ih =>
      rw [List.flatMap_cons, List.filter_append, List.map_append, ih, List.filter_map,
        List.filter_cons]
      by_cases hmem : p.2 ∈ indices
      · simp [hmem, Function.comp_def]
      · simp [hmem, Function.comp_def]
  rw [loweredChars, hfilter, Subsequence.filter_zipIdx_eq haystack h, expansions_eq]

theorem lt_length_of_mem_loweredChars {p : Char × Nat} (h : p ∈ loweredChars tables haystack) :
    p.2 < haystack.length := by
  obtain ⟨q, hq, hp⟩ := List.mem_flatMap.1 h
  obtain ⟨lc, -, rfl⟩ := List.mem_map.1 hp
  exact (List.getElem?_eq_some_iff.1 (List.mem_zipIdx_iff_getElem?.1 hq)).1

/-! ## Matches -/

/-- What the comment says of a match: it is found for what occurs in order, and its indices are
ascending ones of characters whose lower case has the lowered needle in order. -/
def Correct (tables : CaseTables) (haystack needle : Str) : Prop :=
  (needle.Sublist haystack → ∃ r, fuzzyMatch tables haystack needle = some r) ∧
    ∀ r, fuzzyMatch tables haystack needle = some r →
      r.1.Pairwise (· < ·) ∧ (∀ i ∈ r.1, i < haystack.length) ∧
        (tables.toLowercase needle).Sublist (expansions tables haystack r.1)

/-- A match is returned just for what occurs in order when its final sigmas are written so. -/
theorem exists_fuzzyMatch_iff : (∃ r, fuzzyMatch tables haystack needle = some r) ↔
    tables.OccursIn (tables.finalize needle) haystack := by
  rw [CaseTables.OccursIn, ← CaseTables.toLowercase_eq, ← exists_findFrom_iff, fuzzyMatch]
  split
  next hempty =>
    obtain rfl := List.isEmpty_iff.1 hempty
    exact iff_of_true ⟨_, rfl⟩ ⟨[], by cases loweredChars tables haystack <;> rfl⟩
  next =>
    constructor
    · rintro ⟨r, h⟩
      obtain ⟨hits, h, -⟩ := Option.map_eq_some_iff.1 h
      exact ⟨hits, h⟩
    · rintro ⟨hits, h⟩
      exact ⟨_, Option.map_eq_some_iff.2 ⟨hits, h, rfl⟩⟩

theorem indices_of_fuzzyMatch {r : List Nat × Int32}
    (h : fuzzyMatch tables haystack needle = some r) :
    r.1.Pairwise (· < ·) ∧ (∀ i ∈ r.1, i < haystack.length) ∧
      (tables.toLowercase needle).Sublist (expansions tables haystack r.1) := by
  rw [fuzzyMatch] at h
  split at h
  next hempty =>
    cases h
    obtain rfl := List.isEmpty_iff.1 hempty
    exact ⟨List.Pairwise.nil, nofun, List.nil_sublist _⟩
  next =>
    obtain ⟨hits, hfind, rfl⟩ := Option.map_eq_some_iff.1 h
    obtain ⟨found, hsub, hchars, hindices⟩ := exists_of_findFrom hfind
    have hmem : ∀ p ∈ found, p.2 ∈ Subsequence.ascending (hits.map Prod.snd) := by
      intro p hp
      rw [Subsequence.mem_ascending, ← hindices]
      exact List.mem_map_of_mem hp
    refine ⟨Subsequence.pairwise_ascending _, fun i hi => ?_, ?_⟩
    · rw [Subsequence.mem_ascending, ← hindices] at hi
      obtain ⟨p, hp, rfl⟩ := List.mem_map.1 hi
      exact lt_length_of_mem_loweredChars (hsub.subset hp)
    · rw [← filter_loweredChars (Subsequence.pairwise_ascending _), ← hchars]
      refine List.Sublist.map Prod.fst ?_
      rw [← List.filter_eq_self.2 fun p hp => decide_eq_true (hmem p hp)]
      exact hsub.filter _

/-- Matching is right where the needle still occurs in order with its final sigmas written so, and
for every haystack just where the needle has no final sigma. -/
theorem correct_iff_finalSigma :
    (Correct tables haystack needle ↔
      (needle.Sublist haystack → tables.OccursIn (tables.finalize needle) haystack)) ∧
    ((∀ haystack, Correct tables haystack needle) ↔ ¬tables.HasFinalSigma needle) := by
  have hpair : ∀ haystack, Correct tables haystack needle ↔
      (needle.Sublist haystack → tables.OccursIn (tables.finalize needle) haystack) := by
    intro haystack
    rw [Correct, exists_fuzzyMatch_iff]
    exact and_iff_left fun r => indices_of_fuzzyMatch
  refine ⟨hpair haystack, ?_⟩
  constructor
  · intro h hfinal
    refine CaseTables.not_occursIn_finalize hfinal ((hpair needle).1 (h needle) ?_)
    exact List.Sublist.refl needle
  · intro h haystack
    rw [hpair, CaseTables.finalize_eq_self h]
    exact CaseTables.occursIn_of_sublist

def someCapitals : CaseTables where
  lower c :=
    if c = 'Σ' then ['σ'] else if c = 'Α' then ['α'] else if c = 'İ' then ['i', '\u0307']
    else [c]
  cased c := c.isAlpha || c = 'Σ' || c = 'Α' || c = 'İ' || c = 'σ' || c = 'ς' || c = 'α'
  caseIgnorable c := c = '.' || c = '\u0307'
  lower_sigma := rfl
  lower_finalSigma := by decide
  eq_of_mem_lower c h := by
    split at h
    · exact absurd h (by decide)
    · split at h
      · exact absurd h (by decide)
      · split at h
        · exact absurd h (by decide)
        · exact (List.mem_singleton.1 h).symm

example : fuzzyMatch someCapitals "İstanbul" "is" = some ([0, 1], -99) := by decide

/-- The string `ΑΣ` does not match itself. -/
theorem not_correct_finalSigma : fuzzyMatch someCapitals "ΑΣ" "ΑΣ" = none ∧
    ¬Correct someCapitals "ΑΣ" "ΑΣ" := by
  have hnone : fuzzyMatch someCapitals "ΑΣ" "ΑΣ" = none := by decide
  refine ⟨hnone, fun h => ?_⟩
  obtain ⟨r, hr⟩ := h.1 (List.Sublist.refl _)
  rw [hnone] at hr
  cases hr

end SheriMl.FuzzyMatch
