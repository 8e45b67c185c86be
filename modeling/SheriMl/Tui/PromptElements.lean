import SheriMl.Lib.Lines
import SheriMl.Lib.Numeral
import SheriMl.Tui.PromptSentinels

/-!
# The words of a command

A command's elements that reach into the rest, in order (`keptElements`), make the rest a list of
units (`commandUnits`), and the shell splits these into words (`commandWords`). What
`parse_tokens_with_elements` gives is these words, with each element's text as far as it is in the
rest, if their sentinels are put back as they were written (`parseTokens_eq`).
-/

namespace SheriMl.Tui

open List

open Str (IsBoundary)

/-- In bounds, at boundaries and pairwise disjoint. -/
structure ElementsDisjoint (text : Str) (elements : List UserTextElement) : Prop where
  aligned : ∀ e ∈ elements, e.byteRange.Aligned text
  disjoint : elements.Pairwise fun e f => min e.byteRange.stop f.byteRange.stop ≤
    max e.byteRange.start f.byteRange.start

/-- The element is not empty, and not before the offset. -/
def UserTextElement.Reaches (offset : Nat) (e : UserTextElement) : Prop :=
  e.byteRange.start < e.byteRange.stop ∧ offset < e.byteRange.stop

instance (offset : Nat) (e : UserTextElement) : Decidable (e.Reaches offset) :=
  inferInstanceAs (Decidable (_ ∧ _))

/-- The elements that reach into the rest, in order. -/
def keptElements (offset : Nat) (elements : List UserTextElement) : List UserTextElement :=
  (elements.filter fun e => e.Reaches offset).insertionSort
    fun e f => e.byteRange.start ≤ f.byteRange.start

/-- The units of a text from a cursor on, with its elements. -/
def unitsFrom {ι : Type} (text : Str) (range : ι → Range) : Nat → List ι → List (TextUnit ι)
  | cursor, [] => (Str.slice text cursor (Str.utf8Size text)).map .char
  | cursor, i :: elements =>
    (Str.slice text cursor (range i).start).map .char ++
      .element i :: unitsFrom text range (range i).stop elements

section Command

variable (text : Str) (offset : Nat) (kept : List UserTextElement)

def commandUnits : List (TextUnit (Fin kept.length)) :=
  unitsFrom text (fun i => (kept.get i).byteRange) offset (List.finRange kept.length)

def commandWords : List (List (TextUnit (Fin kept.length))) :=
  ShellWords.split TextUnit.kind (commandUnits text offset kept)

def wholeElement (i : Fin kept.length) : Shown :=
  ⟨Str.slice text (kept.get i).byteRange.start (kept.get i).byteRange.stop,
    (kept.get i).placeholderIn text⟩

end Command

/-! ## Sentinels -/

def sentinelStart : Str := "__CODEX_ELEM_"

theorem sentinel_eq (rest : Str) (idx : Nat) : ∃ k, sentinel rest idx =
    sentinelStart ++ ((toString idx).toList ++ '_' :: '_' :: List.replicate k '_') := by
  have hextend (fuel : Nat) (s : Str) :
      ∃ k, extendSentinel rest fuel s = s ++ List.replicate k '_' := by
    induction fuel generalizing s with
    | zero => exact ⟨0, (append_nil s).symm⟩
    | succ fuel ih =>
      rw [extendSentinel]
      split
      · obtain ⟨k, hk⟩ := ih (s ++ ['_'])
        exact ⟨k + 1, by rw [hk, append_assoc, replicate_succ, singleton_append]⟩
      · exact ⟨0, (append_nil s).symm⟩
  obtain ⟨k, hk⟩ := hextend (rest.length + 1) ("__CODEX_ELEM_" ++ (toString idx).toList ++ "__")
  refine ⟨k, hk.trans ?_⟩
  rw [append_assoc, append_assoc]
  rfl

theorem sentinel_ne_nil (rest : Str) (idx : Nat) : sentinel rest idx ≠ [] := by
  obtain ⟨k, hk⟩ := sentinel_eq rest idx
  have hstart : sentinelStart ≠ [] := by decide
  rw [hk]
  exact append_ne_nil_of_left_ne_nil hstart _

theorem sentinel_inj {rest s : Str} {i j : Nat} (hi : sentinel rest i <+: s)
    (hj : sentinel rest j <+: s) : i = j := by
  obtain ⟨k, hk⟩ := sentinel_eq rest i
  obtain ⟨l, hl⟩ := sentinel_eq rest j
  obtain ⟨r, hr⟩ := hi
  obtain ⟨t, ht⟩ := hj
  rw [← ht, hk, hl] at hr
  simp only [append_assoc, cons_append] at hr
  have hdigits := append_cancel_left hr
  exact Decimal.toString_inj ((Str.append_cons_inj (Decimal.notMem_toString i rfl)
    (Decimal.notMem_toString j rfl)).1 hdigits).1

theorem charKind_of_isDigit {c : Char} (h : c.isDigit = true) :
    ShellWords.charKind c = .ordinary := by
  have hne {d : Char} (hd : d.isDigit = false) : c ≠ d := by
    rintro rfl
    rw [h] at hd
    cases hd
  simp [ShellWords.charKind, hne]

theorem charKind_of_mem_sentinel {rest : Str} {idx : Nat} {c : Char}
    (h : c ∈ sentinel rest idx) : ShellWords.charKind c = .ordinary := by
  obtain ⟨k, hk⟩ := sentinel_eq rest idx
  rw [hk] at h
  rcases mem_append.1 h with h | h
  · have hstart :
        sentinelStart.all (fun c => decide (ShellWords.charKind c = .ordinary)) = true := by
      decide +kernel
    exact of_decide_eq_true (all_eq_true.1 hstart c h)
  rcases mem_append.1 h with h | h
  · exact charKind_of_isDigit (Decimal.isDigit_of_mem h)
  · have hunderscore : c = '_' := by
      rcases mem_cons.1 h with h | h
      · exact h
      rcases mem_cons.1 h with h | h
      · exact h
      · exact eq_of_mem_replicate h
    rw [hunderscore]
    decide

/-- The sentinel of an element, by its number. -/
def sentinelOf (rest : Str) {n : Nat} (i : Fin n) : Str := sentinel rest i

theorem sentinelsApart (rest : Str) (n : Nat) :
    SentinelsApart (sentinelOf rest) (List.finRange n) :=
  ⟨fun i => sentinel_ne_nil rest i, fun _ _ _ hi hj => Fin.ext (sentinel_inj hi hj),
    mem_finRange⟩

theorem writes_sentinels (rest : Str) (n : Nat) : ShellWords.Writes TextUnit.kind
    ShellWords.charKind (TextUnit.write (sentinelOf rest (n := n))) := by
  rintro (c | i)
  · exact .inl ⟨c, rfl, rfl⟩
  · exact .inr ⟨rfl, sentinel_ne_nil rest i, fun c hc => charKind_of_mem_sentinel hc⟩

/-! ## Local elements -/

variable {text before : Str} {offset : Nat} {elements kept : List UserTextElement}

/-- An element in the coordinates of the rest. -/
def UserTextElement.shift (offset : Nat) (e : UserTextElement) : UserTextElement :=
  { e with byteRange := ⟨e.byteRange.start - offset, e.byteRange.stop - offset⟩ }

theorem localElement_eq {e : UserTextElement} {restSize : Nat}
    (h : e.byteRange.stop ≤ offset + restSize) :
    localElement restSize offset e = if e.Reaches offset then some (e.shift offset) else none := by
  have hif : e.Reaches offset ↔ ¬ e.byteRange.stop ≤ offset ∧
      e.byteRange.start - offset < e.byteRange.stop - offset := by
    rw [UserTextElement.Reaches]
    omega
  rw [localElement, shiftTextElementLeft]
  by_cases hstop : e.byteRange.stop ≤ offset
  · rw [if_pos hstop, if_neg fun hreaches => (hif.1 hreaches).1 hstop]
  by_cases hlt : e.byteRange.start - offset < e.byteRange.stop - offset
  · have hin : ¬ e.byteRange.start - offset ≥ restSize := by omega
    have hmin : min (e.byteRange.stop - offset) restSize = e.byteRange.stop - offset := by omega
    rw [if_neg hstop, if_pos (hif.2 ⟨hstop, hlt⟩)]
    simp only [if_pos hlt, if_neg hin, hmin]
    rfl
  · rw [if_neg hstop, if_neg fun hreaches => hlt (hif.1 hreaches).2]
    simp only [if_neg hlt]

theorem mem_keptElements {e : UserTextElement} :
    e ∈ keptElements offset elements ↔ e ∈ elements ∧ e.Reaches offset := by
  rw [keptElements, mem_insertionSort, mem_filter, decide_eq_true_iff]

/-- Disjoint elements that reach into the rest come one after the other. -/
theorem ElementsDisjoint.apart (h : ElementsDisjoint text elements) :
    (elements.filter fun e => e.Reaches offset).Pairwise fun e f =>
      e.byteRange.stop ≤ f.byteRange.start ∨ f.byteRange.stop ≤ e.byteRange.start := by
  refine (h.disjoint.sublist filter_sublist).imp_of_mem fun {e f} he hf hdisjoint => ?_
  have he' := (of_decide_eq_true (mem_filter.1 he).2).1
  have hf' := (of_decide_eq_true (mem_filter.1 hf).2).1
  omega

/-- The elements that the code goes on with. -/
theorem insertionSort_localElements {rest : Str} (h : ElementsDisjoint text elements)
    (htext : Str.utf8Size text = offset + Str.utf8Size rest) :
    (elements.filterMap (localElement (Str.utf8Size rest) offset)).insertionSort
        (fun e f => e.byteRange.start ≤ f.byteRange.start) =
      (keptElements offset elements).map (UserTextElement.shift offset) := by
  have hlocal : elements.filterMap (localElement (Str.utf8Size rest) offset) =
      (elements.filter fun e => e.Reaches offset).map (UserTextElement.shift offset) := by
    rw [← filterMap_eq_map, ← filterMap_eq_filter, filterMap_filterMap]
    refine filterMap_congr fun e he => ?_
    have hle := (h.aligned e he).stop.le
    rw [localElement_eq (by omega)]
    by_cases hreaches : e.Reaches offset
    · simp [Option.guard, hreaches]
    · simp [Option.guard, hreaches]
  rw [hlocal, keptElements]
  symm
  refine map_insertionSort _ _ _ _ fun e he f hf => ?_
  have he' := of_decide_eq_true (mem_filter.1 he).2
  have hf' := of_decide_eq_true (mem_filter.1 hf).2
  by_cases hef : e = f
  · subst hef
    exact ⟨fun _ => Nat.le_refl _, fun _ => Nat.le_refl _⟩
  · have hsymm : Std.Symm fun e f : UserTextElement =>
        e.byteRange.stop ≤ f.byteRange.start ∨ f.byteRange.stop ≤ e.byteRange.start :=
      ⟨fun _ _ => Or.symm⟩
    have hapart := h.apart.forall he hf hef
    simp only [UserTextElement.shift]
    rw [UserTextElement.Reaches] at he' hf'
    omega

/-! ## The rest -/

theorem dropBytes_of_le {s : Str} {a : Nat} (h : Str.utf8Size s ≤ a) : Str.dropBytes a s = [] := by
  have htake := Str.takeBytes_append (s := []) h
  rw [append_nil] at htake
  rw [Str.dropBytes, htake, length_append, Str.takeBytes, length_nil, Nat.add_zero,
    drop_length]

/-- A slice after a beginning of the text. -/
theorem slice_append_sub {rest : Str} {a b : Nat} (h : Str.utf8Size before ≤ a) :
    Str.slice (before ++ rest) a b =
      Str.slice rest (a - Str.utf8Size before) (b - Str.utf8Size before) := by
  have hdrop (a : Nat) (s : Str) (ha : Str.utf8Size before ≤ a) :
      Str.dropBytes a (before ++ s) = Str.dropBytes (a - Str.utf8Size before) s := by
    rw [Str.dropBytes, Str.takeBytes_append ha, length_append, drop_length_add_append]
    rfl
  by_cases hb : Str.utf8Size before ≤ b
  · rw [Str.slice, Str.takeBytes_append hb, hdrop _ _ h, Str.slice]
  · have hleft := Str.utf8Size_takeBytes_le b (before ++ rest)
    have hright := Str.utf8Size_takeBytes_le (b - Str.utf8Size before) rest
    rw [Str.slice, Str.slice, dropBytes_of_le (by omega), dropBytes_of_le (by omega)]

variable {ι : Type} {range : ι → Range} {is : List ι} {cursor : Nat}

theorem unitsFrom_append {rest : Str} (hcursor : Str.utf8Size before ≤ cursor)
    (hstop : ∀ i ∈ is, Str.utf8Size before ≤ (range i).stop) :
    unitsFrom (before ++ rest) range cursor is =
      unitsFrom rest (fun i => ⟨(range i).start - Str.utf8Size before,
        (range i).stop - Str.utf8Size before⟩) (cursor - Str.utf8Size before) is := by
  induction is generalizing cursor with
  | nil =>
    have hsize : Str.utf8Size (before ++ rest) - Str.utf8Size before = Str.utf8Size rest := by
      rw [Str.utf8Size_append]
      omega
    rw [unitsFrom, unitsFrom, slice_append_sub hcursor, hsize]
  | cons i is ih =>
    obtain ⟨hi, his⟩ := forall_mem_cons.1 hstop
    rw [unitsFrom, unitsFrom, slice_append_sub hcursor, ih hi his]

theorem replaceTextElements_eq {n idx : Nat} {rest : Str} (localOf : Fin n → UserTextElement)
    {is : List (Fin n)} (h : is.map Fin.val = List.range' idx is.length) :
    replaceTextElements rest cursor idx (is.map localOf) =
      (withSentinels (sentinelOf rest)
        (unitsFrom rest (fun i => (localOf i).byteRange) cursor is),
      replacementsOf (sentinelOf rest)
        (fun i => ⟨Str.slice rest (localOf i).byteRange.start (localOf i).byteRange.stop,
          (localOf i).placeholderIn rest⟩) is) := by
  have hchars (s : Str) (units : List (TextUnit (Fin n))) :
      withSentinels (sentinelOf rest) (s.map .char ++ units) =
        s ++ withSentinels (sentinelOf rest) units := by
    induction s with
    | nil => rfl
    | cons c s ih => exact congrArg (c :: ·) ih
  induction is generalizing cursor idx with
  | nil =>
    have hnil := hchars (Str.slice rest cursor (Str.utf8Size rest)) []
    rw [append_nil] at hnil
    rw [map_nil, replaceTextElements, unitsFrom, hnil, withSentinels, flatMap_nil,
      append_nil]
    rfl
  | cons i is ih =>
    rw [map_cons, length_cons, List.range'_succ] at h
    obtain ⟨rfl, htail⟩ := List.cons.inj h
    rw [map_cons, replaceTextElements, unitsFrom, hchars]
    dsimp only
    rw [ih htail, append_assoc]
    rfl

/-! ## Words -/

theorem utf8Size_slice {a b : Nat} (ha : IsBoundary text a) (hb : IsBoundary text b)
    (hab : a ≤ b) : Str.utf8Size (Str.slice text a b) = b - a := by
  obtain ⟨l, m, r, rfl, rfl, rfl⟩ := ha.exists_append hb hab
  rw [Str.slice_append, Str.utf8Size_append]
  omega

def localElementShown (rest : Str) (offset : Nat) (kept : List UserTextElement)
    (i : Fin kept.length) : Shown :=
  let e := (kept.get i).shift offset
  ⟨Str.slice rest e.byteRange.start e.byteRange.stop, e.placeholderIn rest⟩

section Kept

variable {rest : Str} (hkept : ∀ e ∈ kept, e.byteRange.Aligned (before ++ rest) ∧
  e.Reaches (Str.utf8Size before)) (i : Fin kept.length)

theorem text_localElementShown (before rest : Str) :
    (localElementShown rest (Str.utf8Size before) kept i).text = Str.slice (before ++ rest)
      (max (kept.get i).byteRange.start (Str.utf8Size before)) (kept.get i).byteRange.stop := by
  rw [slice_append_sub (le_max_right _ _)]
  simp only [localElementShown, UserTextElement.shift]
  congr 1
  omega

include hkept

theorem utf8Size_localElementShown :
    Str.utf8Size (localElementShown rest (Str.utf8Size before) kept i).text =
      (kept.get i).byteRange.stop -
        max (kept.get i).byteRange.start (Str.utf8Size before) := by
  obtain ⟨haligned, hreaches⟩ := hkept _ (get_mem kept i)
  have hboundary : IsBoundary (before ++ rest)
      (max (kept.get i).byteRange.start (Str.utf8Size before)) := by
    rcases max_choice (kept.get i).byteRange.start (Str.utf8Size before) with hmax | hmax
    · rw [hmax]
      exact haligned.start
    · rw [hmax]
      exact Str.isBoundary_append before rest
  rw [text_localElementShown, utf8Size_slice hboundary haligned.stop]
  exact max_le haligned.le hreaches.2.le

theorem localElementShown_ne_nil :
    (localElementShown rest (Str.utf8Size before) kept i).text ≠ [] := by
  have hsize := utf8Size_localElementShown hkept i
  have hreaches := (hkept _ (get_mem kept i)).2
  rw [UserTextElement.Reaches] at hreaches
  intro hnil
  rw [hnil, Str.utf8Size_nil] at hsize
  omega

theorem localElementShown_eq_iff :
    localElementShown rest (Str.utf8Size before) kept i = wholeElement (before ++ rest) kept i ↔
      Str.utf8Size before ≤ (kept.get i).byteRange.start := by
  obtain ⟨haligned, hreaches⟩ := hkept _ (get_mem kept i)
  have hsize := utf8Size_localElementShown hkept i
  have htext := text_localElementShown i before rest
  constructor
  · intro heq
    rw [heq, wholeElement, utf8Size_slice haligned.start haligned.stop haligned.le] at hsize
    have hlt := hreaches.1
    omega
  · intro hle
    rw [max_eq_left hle] at htext
    have hget : Str.get? rest ((kept.get i).byteRange.start - Str.utf8Size before)
        ((kept.get i).byteRange.stop - Str.utf8Size before) =
        Str.get? (before ++ rest) (kept.get i).byteRange.start
          (kept.get i).byteRange.stop := by
      rw [Str.get?_eq_slice haligned.start haligned.stop haligned.le,
        Str.get?_eq_slice (haligned.start.of_append_right hle)
          (haligned.stop.of_append_right (hle.trans haligned.le))
          (Nat.sub_le_sub_right haligned.le _), slice_append_sub hle]
    rw [wholeElement, ← htext, localElementShown]
    dsimp only
    rw [UserTextElement.placeholderIn, UserTextElement.placeholderIn]
    simp only [UserTextElement.shift, hget]

end Kept

theorem map_val_finRange (n : Nat) :
    (List.finRange n).map Fin.val = List.range' 0 (List.finRange n).length := by
  rw [length_finRange, ← range_eq_range']
  exact map_coe_finRange_eq_range

variable {shlex : Str → List Str} {rest : Str}

theorem keptElements_spec (h : ElementsDisjoint (before ++ rest) elements) :
    ∀ e ∈ keptElements (Str.utf8Size before) elements,
      e.byteRange.Aligned (before ++ rest) ∧ e.Reaches (Str.utf8Size before) := by
  intro e he
  obtain ⟨hmem, hreaches⟩ := mem_keptElements.1 he
  exact ⟨h.aligned e hmem, hreaches⟩

/-- The tokens are the shell's words of the units, with the sentinels in them put back. -/
theorem parseTokens_eq (hshlex : ∀ s, shlex s = ShellWords.split ShellWords.charKind s)
    (h : ElementsDisjoint (before ++ rest) elements)
    (hkept : kept = keptElements (Str.utf8Size before) elements) :
    parseTokensWithElements shlex rest
        (elements.filterMap (localElement (Str.utf8Size rest) (Str.utf8Size before))) =
      (commandWords (before ++ rest) (Str.utf8Size before) kept).map fun word =>
        render (localElementShown rest (Str.utf8Size before) kept)
          (parseUnits (sentinelOf rest) (List.finRange kept.length) 0
            (withSentinels (sentinelOf rest) word)) := by
  have hsize : Str.utf8Size (before ++ rest) = Str.utf8Size before + Str.utf8Size rest :=
    Str.utf8Size_append
  have hspec := keptElements_spec h
  rw [parseTokensWithElements, insertionSort_localElements h hsize, ← hkept]
  rw [← hkept] at hspec
  have hlocal : kept.map (UserTextElement.shift (Str.utf8Size before)) =
      (List.finRange kept.length).map fun i => (kept.get i).shift (Str.utf8Size before) := by
    conv_lhs => rw [← map_get_finRange kept, map_map]
    rfl
  have hunits : commandUnits (before ++ rest) (Str.utf8Size before) kept =
      unitsFrom rest (fun i => ((kept.get i).shift (Str.utf8Size before)).byteRange) 0
        (List.finRange kept.length) := by
    rw [commandUnits, unitsFrom_append (Nat.le_refl _)
      fun i _ => (hspec _ (get_mem kept i)).2.2.le, Nat.sub_self]
    rfl
  have hsplit := ShellWords.split_flatMap (writes_sentinels rest kept.length)
    (commandUnits (before ++ rest) (Str.utf8Size before) kept)
  rw [hlocal, replaceTextElements_eq _ (map_val_finRange _), ← hunits]
  dsimp only
  rw [hshlex, withSentinels, hsplit, map_map]
  refine map_congr_left fun word _ => ?_
  exact applyReplacementsToToken_eq (sentinelsApart rest kept.length)
    (localElementShown_ne_nil hspec) _

end SheriMl.Tui
