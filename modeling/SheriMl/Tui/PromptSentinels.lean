import SheriMl.Tui.PromptUnits

/-!
# Sentinels put back

A token in which sentinels stand for elements is read as units again (`parseUnits`), and
`apply_replacements_to_token` shows these (`applyReplacementsToToken_eq`). They are the units that
the sentinels were written for if no sentinel begins at a character (`parseUnits_withSentinels`),
and only then (`noStray_of_sameUnits`).
-/

namespace SheriMl.Tui

open List

section Parse

variable {ι : Type} (sentinelOf : ι → Str) (all : List ι)

/-- The units of a token with sentinels, with what is still to be skipped of one. -/
def parseUnits : Nat → Str → List (TextUnit ι)
  | _, [] => []
  | skip + 1, _ :: token => parseUnits skip token
  | 0, c :: token =>
    match all.find? fun i => (sentinelOf i).isPrefixOf (c :: token) with
    | some i => .element i :: parseUnits ((sentinelOf i).length - 1) token
    | none => .char c :: parseUnits 0 token

def withSentinels (units : List (TextUnit ι)) : Str := units.flatMap (TextUnit.write sentinelOf)

/-- No sentinel begins at a character. -/
def NoStray : List (TextUnit ι) → Prop
  | [] => True
  | .char c :: units =>
    (∀ i ∈ all, ¬ sentinelOf i <+: c :: withSentinels sentinelOf units) ∧ NoStray units
  | .element _ :: units => NoStray units

instance decidableNoStray : (units : List (TextUnit ι)) →
    Decidable (NoStray sentinelOf all units)
  | [] => inferInstanceAs (Decidable True)
  | .char _ :: units =>
    have := decidableNoStray units
    inferInstanceAs (Decidable (_ ∧ _))
  | .element _ :: units => decidableNoStray units

/-- At most one sentinel begins at a place, and none is empty. -/
structure SentinelsApart : Prop where
  ne_nil : ∀ i, sentinelOf i ≠ []
  inj : ∀ i j s, sentinelOf i <+: s → sentinelOf j <+: s → i = j
  mem : ∀ i, i ∈ all

variable {sentinelOf all} {content : ι → Shown} {units : List (TextUnit ι)} {token before : Str}
  {i : ι}

theorem parseUnits_skip (passed token : Str) :
    parseUnits sentinelOf all passed.length (passed ++ token) =
      parseUnits sentinelOf all 0 token := by
  induction passed with
  | nil => rfl
  | cons c passed ih => exact ih

theorem parseUnits_sentinel (h : SentinelsApart sentinelOf all) (i : ι) (token : Str) :
    parseUnits sentinelOf all 0 (sentinelOf i ++ token) =
      .element i :: parseUnits sentinelOf all 0 token := by
  have hfind : all.find? (fun j => (sentinelOf j).isPrefixOf (sentinelOf i ++ token)) = some i := by
    have hpre := prefix_append (sentinelOf i) token
    cases hfound : all.find? fun j => (sentinelOf j).isPrefixOf (sentinelOf i ++ token) with
    | none =>
      have hnot := List.find?_eq_none.1 hfound i (h.mem i)
      exact absurd (List.isPrefixOf_iff_prefix.2 hpre) hnot
    | some j =>
      have hj : (sentinelOf j).isPrefixOf (sentinelOf i ++ token) = true :=
        (List.find?_eq_some_iff_append.1 hfound).1
      rw [h.inj j i _ (List.isPrefixOf_iff_prefix.1 hj) hpre]
  cases hsentinel : sentinelOf i with
  | nil => exact absurd hsentinel (h.ne_nil i)
  | cons c sentinel =>
    rw [hsentinel] at hfind
    rw [cons_append, parseUnits, ← cons_append, hfind]
    dsimp only
    rw [hsentinel]
    exact congrArg (TextUnit.element i :: ·) (parseUnits_skip sentinel token)

theorem parseUnits_char {c : Char} (h : ∀ i ∈ all, ¬ sentinelOf i <+: c :: token) :
    parseUnits sentinelOf all 0 (c :: token) = .char c :: parseUnits sentinelOf all 0 token := by
  have hnone : all.find? (fun i => (sentinelOf i).isPrefixOf (c :: token)) = none :=
    List.find?_eq_none.2 fun i hi hpre => h i hi (List.isPrefixOf_iff_prefix.1 hpre)
  rw [parseUnits, hnone]

theorem parseUnits_chars (h : ∀ i ∈ all, ¬ Str.BeginsIn (sentinelOf i) before token) :
    parseUnits sentinelOf all 0 (before ++ token) =
      before.map .char ++ parseUnits sentinelOf all 0 token := by
  induction before with
  | nil => rfl
  | cons c before ih =>
    have hhere : ∀ i ∈ all, ¬ sentinelOf i <+: c :: (before ++ token) :=
      fun i hi hpre => h i hi (Str.beginsIn_cons.2 (.inl hpre))
    rw [cons_append, parseUnits_char hhere,
      ih fun i hi hbegins => h i hi (Str.beginsIn_cons.2 (.inr hbegins))]
    rfl

/-- What is put back is what the sentinels were written for where none of them begins at a
character. -/
theorem parseUnits_withSentinels (h : SentinelsApart sentinelOf all)
    (hstray : NoStray sentinelOf all units) :
    parseUnits sentinelOf all 0 (withSentinels sentinelOf units) = units := by
  induction units with
  | nil => rfl
  | cons unit units ih =>
    cases unit with
    | char c =>
      have hparse := parseUnits_char hstray.1
      rw [ih hstray.2] at hparse
      exact hparse
    | element i =>
      have hparse := parseUnits_sentinel h i (withSentinels sentinelOf units)
      rw [ih hstray] at hparse
      exact hparse

/-- Where a sentinel begins at a character an element is put back in place of it, and nothing that
follows makes up for this. -/
theorem noStray_of_sameUnits {content' : ι → Shown} {after after' : List (TextUnit ι)}
    (h : SentinelsApart sentinelOf all)
    (hsame : List.Forall₂ (SameUnit content content')
      (parseUnits sentinelOf all 0 (withSentinels sentinelOf units) ++ after) (units ++ after')) :
    NoStray sentinelOf all units ∧ (∀ i, .element i ∈ units → content i = content' i) ∧
      List.Forall₂ (SameUnit content content') after after' := by
  induction units with
  | nil => exact ⟨trivial, fun i hi => absurd hi not_mem_nil, hsame⟩
  | cons unit units ih =>
    cases unit with
    | char c =>
      have hnone : ∀ i ∈ all, ¬ sentinelOf i <+: c :: withSentinels sentinelOf units := by
        rintro i - ⟨rest, hrest⟩
        have hparse := parseUnits_sentinel h i rest
        rw [hrest] at hparse
        have hwith : withSentinels sentinelOf (.char c :: units) =
            c :: withSentinels sentinelOf units := rfl
        rw [hwith, hparse, cons_append, cons_append] at hsame
        cases hsame with
        | cons hhead _ => exact hhead
      have hparse := parseUnits_char hnone
      have hwith : withSentinels sentinelOf (.char c :: units) =
          c :: withSentinels sentinelOf units := rfl
      rw [hwith, hparse, cons_append, cons_append] at hsame
      cases hsame with
      | cons _ htail =>
        obtain ⟨hstray, hshown, hafter⟩ := ih htail
        refine ⟨⟨hnone, hstray⟩, fun i hi => hshown i ?_, hafter⟩
        rcases mem_cons.1 hi with hi | hi
        · cases hi
        · exact hi
    | element i =>
      have hparse := parseUnits_sentinel h i (withSentinels sentinelOf units)
      have hwith : withSentinels sentinelOf (.element i :: units) =
          sentinelOf i ++ withSentinels sentinelOf units := rfl
      rw [hwith, hparse, cons_append, cons_append] at hsame
      cases hsame with
      | cons hhead htail =>
        obtain ⟨hstray, hshown, hafter⟩ := ih htail
        refine ⟨hstray, fun j hj => ?_, hafter⟩
        rcases mem_cons.1 hj with hj | hj
        · cases hj
          exact hhead
        · exact hshown j hj

end Parse

/-! ## The loop over a token -/

section Apply

/-- A replacement whose sentinel is found first, if there is one. -/
def IsNearest (slice : Str) (replacements : List ElementReplacement) :
    Option (Nat × ElementReplacement) → Prop
  | none => ∀ r ∈ replacements, Str.findStr r.sentinel slice = none
  | some (pos, nearest) => nearest ∈ replacements ∧
    Str.findStr nearest.sentinel slice = some pos ∧
      ∀ r ∈ replacements, ∀ pos', Str.findStr r.sentinel slice = some pos' → pos ≤ pos'

theorem IsNearest.nearer {slice : Str} {replacements : List ElementReplacement}
    {best : Option (Nat × ElementReplacement)} (h : IsNearest slice replacements best)
    (r : ElementReplacement) :
    IsNearest slice (replacements ++ [r]) (nearer slice best r) := by
  unfold SheriMl.Tui.nearer
  cases hfind : Str.findStr r.sentinel slice with
  | none =>
    cases best with
    | none =>
      intro r' hr'
      rcases mem_append.1 hr' with hr' | hr'
      · exact h r' hr'
      · rw [mem_singleton.1 hr', hfind]
    | some best =>
      obtain ⟨hmem, hbest, hle⟩ := h
      refine ⟨mem_append_left _ hmem, hbest, fun r' hr' pos' hpos' => ?_⟩
      rcases mem_append.1 hr' with hr' | hr'
      · exact hle r' hr' pos' hpos'
      · rw [mem_singleton.1 hr', hfind] at hpos'
        cases hpos'
  | some pos =>
    have hlast : r ∈ replacements ++ [r] := mem_append_right _ (mem_singleton_self r)
    cases best with
    | none =>
      refine ⟨hlast, hfind, fun r' hr' pos' hpos' => ?_⟩
      rcases mem_append.1 hr' with hr' | hr'
      · rw [h r' hr'] at hpos'
        cases hpos'
      · rw [mem_singleton.1 hr', hfind] at hpos'
        exact (Option.some.inj hpos').le
    | some best =>
      obtain ⟨hmem, hbest, hle⟩ := h
      dsimp only
      split
      · next hnear =>
        refine ⟨mem_append_left _ hmem, hbest, fun r' hr' pos' hpos' => ?_⟩
        rcases mem_append.1 hr' with hr' | hr'
        · exact hle r' hr' pos' hpos'
        · rw [mem_singleton.1 hr', hfind] at hpos'
          obtain rfl := Option.some.inj hpos'
          exact hnear
      · next hfar =>
        refine ⟨hlast, hfind, fun r' hr' pos' hpos' => ?_⟩
        rcases mem_append.1 hr' with hr' | hr'
        · exact (Nat.not_le.1 hfar).le.trans (hle r' hr' pos' hpos')
        · rw [mem_singleton.1 hr', hfind] at hpos'
          exact (Option.some.inj hpos').le

theorem nextReplacement_isNearest (slice : Str) (replacements : List ElementReplacement) :
    IsNearest slice replacements (nextReplacement slice replacements) := by
  induction replacements using List.reverseRecOn with
  | nil => exact fun r hr => absurd hr not_mem_nil
  | append_singleton replacements r ih =>
    rw [nextReplacement, foldl_concat]
    exact ih.nearer r

variable {ι : Type} {sentinelOf : ι → Str} {all : List ι} {content : ι → Shown}

def replacementsOf (sentinelOf : ι → Str) (content : ι → Shown) (all : List ι) :
    List ElementReplacement :=
  all.map fun i => ⟨sentinelOf i, (content i).text, (content i).placeholder⟩

/-- A sentinel that does not come before the one that is found. -/
theorem not_beginsIn_of_le {pattern before rest : Str}
    (h : ∀ pos, Str.findStr pattern (before ++ rest) = some pos → Str.utf8Size before ≤ pos) :
    ¬ Str.BeginsIn pattern before rest := by
  rintro ⟨t, hne, ⟨front, rfl⟩, hpre⟩
  obtain ⟨pos, hfound, hle⟩ := Str.findStr_le front hpre
  have hlow := h pos (by rw [append_assoc, hfound])
  have hpos := Str.utf8Size_pos hne
  rw [Str.utf8Size_append] at hlow
  omega

theorem applyReplacements_eq (h : SentinelsApart sentinelOf all) (hne : ∀ i, (content i).text ≠ [])
    {fuel : Nat} {token : Str} (hfuel : token.length ≤ fuel) (units : List (TextUnit ι)) :
    applyReplacements (replacementsOf sentinelOf content all) fuel token (render content units) =
      render content (units ++ parseUnits sentinelOf all 0 token) := by
  induction fuel generalizing token units with
  | zero =>
    rw [length_eq_zero_iff.1 (Nat.le_zero.1 hfuel), parseUnits, append_nil]
    rfl
  | succ fuel ih =>
    rw [applyReplacements]
    split
    · next hnil => rw [hnil, parseUnits, append_nil]
    have hnearest := nextReplacement_isNearest token (replacementsOf sentinelOf content all)
    split
    · next hnext =>
      rw [hnext] at hnearest
      have hnone : ∀ i ∈ all, ¬ Str.BeginsIn (sentinelOf i) token [] := by
        intro i hi
        refine not_beginsIn_of_le fun pos hpos => ?_
        rw [append_nil, hnearest _ (mem_map_of_mem hi)] at hpos
        cases hpos
      have hchars := parseUnits_chars hnone
      rw [append_nil, parseUnits, append_nil] at hchars
      rw [hchars]
      exact PromptArg.push_render units token
    · next offset r hnext =>
      rw [hnext] at hnearest
      obtain ⟨hmem, hfound, hle⟩ := hnearest
      obtain ⟨i, hi, rfl⟩ := mem_map.1 hmem
      obtain ⟨before, rest, rfl, rfl, ⟨after, rfl⟩, -⟩ := Str.findStr_eq_some hfound
      have hbefore : ∀ j ∈ all, ¬ Str.BeginsIn (sentinelOf j) before (sentinelOf i ++ after) :=
        fun j hj => not_beginsIn_of_le fun pos hpos => hle _ (mem_map_of_mem hj) pos hpos
      dsimp only at hfound hfuel ⊢
      rw [parseUnits_chars hbefore, parseUnits_sentinel h, Str.takeBytes_boundary,
        ← Str.utf8Size_append, ← append_assoc, Str.dropBytes_boundary]
      have hsize := Str.utf8Size_pos (hne i)
      have hlt : Str.utf8Size (textOf content units ++ before) <
          Str.utf8Size (textOf content units ++ before ++ (content i).text) := by
        rw [Str.utf8Size_append (t := (content i).text)]
        omega
      have hshort : after.length ≤ fuel := by
        have hpos := length_pos_of_ne_nil (h.ne_nil i)
        rw [length_append, length_append] at hfuel
        omega
      have hrender : (⟨textOf content units ++ before ++ (content i).text,
          elementsOf content 0 units ++ [⟨⟨Str.utf8Size (textOf content units ++ before),
            Str.utf8Size (textOf content units ++ before ++ (content i).text)⟩,
            (content i).placeholder⟩]⟩ : PromptArg) =
          render content (units ++ before.map .char ++ [.element i]) := by
        rw [render, textOf_append, textOf_append, textOf_chars, elementsOf_append,
          elementsOf_append, textOf_append, textOf_chars, elementsOf_chars, append_nil,
          textOf_element, textOf_nil, append_nil, elementsOf, elementsOf, Nat.zero_add,
          Str.utf8Size_append (t := (content i).text)]
      have hrest := ih hshort (units ++ before.map .char ++ [.element i])
      rw [← hrender] at hrest
      rw [render, if_pos hlt, hrest, append_assoc, append_assoc, singleton_append]

theorem applyReplacementsToToken_eq (h : SentinelsApart sentinelOf all)
    (hne : ∀ i, (content i).text ≠ []) (token : Str) :
    applyReplacementsToToken token (replacementsOf sentinelOf content all) =
      render content (parseUnits sentinelOf all 0 token) := by
  rw [applyReplacementsToToken]
  split
  · next hnil =>
    have hall : all = [] := map_eq_nil_iff.1 hnil
    have hnone : ∀ i ∈ all, ¬ Str.BeginsIn (sentinelOf i) token [] :=
      fun i hi => absurd (hall ▸ hi) not_mem_nil
    have hchars := parseUnits_chars hnone
    rw [append_nil, parseUnits, append_nil] at hchars
    rw [hchars, render, textOf_chars, elementsOf_chars]
  · exact applyReplacements_eq h hne (Nat.le_refl _) []

end Apply

end SheriMl.Tui
