import SheriMl.Lib.Str

/-!
# Lines of a text

A text of lines is read back line by line (`Str.lines_join`), but for a carriage return
that ends a line; a text that goes on keeps its lines. Laws on trimming a text that begins or ends
with other characters than white space.
-/

namespace Str

open List

/-- What `str::lines` makes of a line that a newline ends. -/
def chomp (l : Str) : Str := (stripSuffix l "\r").getD l

theorem chomp_concat (l : Str) : chomp (l ++ ['\r']) = l := by
  have hsuffix : (("\r" : Str).isSuffixOf (l ++ ['\r'])) = true :=
    isSuffixOf_iff_suffix.2 (suffix_append l ['\r'])
  rw [chomp, stripSuffix, if_pos hsuffix, length_append]
  simp

theorem chomp_of_not_endsWith {l : Str} (h : endsWith l "\r" = false) : chomp l = l := by
  rw [endsWith] at h
  rw [chomp, stripSuffix, if_neg (by rw [h]; exact Bool.false_ne_true)]
  rfl

/-- A line without a carriage return at its end, or one more character than is left of it. -/
theorem chomp_cases (l : Str) :
    (endsWith l "\r" = false ∧ chomp l = l) ∨ (endsWith l "\r" = true ∧ l = chomp l ++ ['\r']) := by
  cases h : endsWith l "\r" with
  | false => exact .inl ⟨rfl, chomp_of_not_endsWith h⟩
  | true =>
    obtain ⟨r, rfl⟩ := endsWith_iff.1 h
    refine .inr ⟨rfl, ?_⟩
    have hchomp : chomp (r ++ ("\r" : Str)) = r := chomp_concat r
    rw [hchomp]
    rfl

theorem mem_of_mem_chomp {l : Str} {c : Char} (h : c ∈ chomp l) : c ∈ l := by
  rcases chomp_cases l with ⟨-, hchomp⟩ | ⟨-, hl⟩
  · rwa [hchomp] at h
  · rw [hl]
    exact mem_append_left _ h

theorem notMem_of_mem_lines {s l : Str} (h : l ∈ lines s) : '\n' ∉ l := by
  rw [lines, mem_append] at h
  rcases h with h | h
  · obtain ⟨piece, hpiece, rfl⟩ := mem_map.1 h
    intro hmem
    exact notMem_of_mem_split (dropLast_subset _ hpiece) (mem_of_mem_chomp hmem)
  · split at h
    · cases h
    · rename_i hne
      rw [mem_singleton.1 h]
      cases hlast : (split '\n' s).getLast? with
      | none =>
        rw [hlast] at hne
        exact absurd rfl hne
      | some last =>
        exact notMem_of_mem_split (mem_of_getLast? hlast)

theorem chomp_eq_self_iff {l : Str} : chomp l = l ↔ endsWith l "\r" = false := by
  constructor
  · intro hchomp
    rcases chomp_cases l with ⟨hends, -⟩ | ⟨-, hl⟩
    · exact hends
    · have hlength := congrArg List.length hl
      rw [hchomp, length_append, length_singleton] at hlength
      omega
  · exact chomp_of_not_endsWith

/-- A line ends as what is put before it does, if it is empty, or as it does itself. -/
theorem chomp_append {p : Str} (hp : endsWith p "\r" = false) (s : Str) :
    chomp (p ++ s) = p ++ chomp s := by
  rcases chomp_cases s with ⟨hends, hchomp⟩ | ⟨-, hs⟩
  · rw [hchomp]
    apply chomp_of_not_endsWith
    rw [Bool.eq_false_iff] at hp hends ⊢
    intro hboth
    obtain ⟨r, hr⟩ := endsWith_iff.1 hboth
    rcases eq_nil_or_concat s with rfl | ⟨t, c, rfl⟩
    · rw [append_nil] at hr
      exact hp (endsWith_iff.2 ⟨r, hr⟩)
    · rw [concat_eq_append, ← append_assoc] at hr
      rw [concat_eq_append] at hends
      have hlast : [c] = ("\r" : Str) := (append_inj' hr rfl).2
      exact hends (endsWith_iff.2 ⟨t, congrArg (t ++ ·) hlast⟩)
  · rw [hs, ← append_assoc, chomp_concat, chomp_concat]

theorem lines_join {ls : List Str} {last : Str} (hls : ∀ l ∈ ls, '\n' ∉ l) (hlast : '\n' ∉ last)
    (hne : last ≠ []) : lines (join "\n" (ls ++ [last])) = ls.map chomp ++ [last] := by
  have hsplit : split '\n' (join "\n" (ls ++ [last])) = ls ++ [last] := by
    apply splitOn_intercalate '\n'
    · intro l hl
      rcases mem_append.1 hl with hl | hl
      · exact hls l hl
      · obtain rfl := mem_singleton.1 hl
        exact hlast
    · exact append_ne_nil_of_right_ne_nil _ (cons_ne_nil _ _)
  rw [lines, hsplit, dropLast_concat, List.getLast?_concat, Option.getD_some,
    if_neg (by rw [List.isEmpty_iff]; exact hne)]
  rfl

/-- Each of the pieces before the last one is followed by the separator. -/
theorem join_concat_sep (sep : Str) (ls : List Str) (last : Str) :
    join sep (ls ++ [last]) = ls.flatMap (· ++ sep) ++ last := by
  induction ls with
  | nil => exact append_nil _
  | cons l ls ih =>
    have hcons : join sep (l :: (ls ++ [last])) = l ++ (sep ++ join sep (ls ++ [last])) := by
      cases ls with
      | nil => rfl
      | cons l' ls => rfl
    rw [cons_append, hcons, ih, flatMap_cons, append_assoc, append_assoc]

/-- The text of some lines, each ended by a newline, before a last one. -/
theorem join_concat (ls : List Str) (last : Str) :
    join "\n" (ls ++ [last]) = ls.flatMap (· ++ ['\n']) ++ last := join_concat_sep _ ls last

/-! ## Runs of characters -/

/-- The characters up to the first one that is not of the kind. -/
theorem takeWhile_append_cons {p : Char → Bool} {run : Str} (hrun : ∀ c ∈ run, p c = true)
    {stop : Char} (hstop : p stop = false) (rest : Str) :
    (run ++ stop :: rest).takeWhile p = run := by
  rw [takeWhile_append_of_pos hrun, takeWhile_cons_of_neg (by simp [hstop]),
    append_nil]

theorem dropWhile_append_cons {p : Char → Bool} {run : Str} (hrun : ∀ c ∈ run, p c = true)
    {stop : Char} (hstop : p stop = false) (rest : Str) :
    (run ++ stop :: rest).dropWhile p = stop :: rest := by
  rw [dropWhile_append_of_pos hrun, dropWhile_cons_of_neg (by simp [hstop])]

theorem splitOnce_eq_some {c : Char} {s before after : Str} :
    splitOnce c s = some (before, after) ↔ s = before ++ c :: after ∧ c ∉ before := by
  have hkeep {l : Str} (hl : c ∉ l) : ∀ d ∈ l, (d != c) = true := by
    intro d hd
    refine bne_iff_ne.2 ?_
    rintro rfl
    exact hl hd
  have hcut (l r : Str) (hl : c ∉ l) : splitOnce c (l ++ c :: r) = some (l, r) := by
    rw [splitOnce, if_pos (by simp), takeWhile_append_cons (hkeep hl) (by simp),
      dropWhile_append_cons (hkeep hl) (by simp), drop_one, tail_cons]
  constructor
  · intro hsplit
    have hmem : c ∈ s := by
      by_contra hmem
      rw [splitOnce, if_neg hmem] at hsplit
      cases hsplit
    obtain ⟨l, r, rfl, hl⟩ := eq_append_cons_of_mem hmem
    rw [hcut l r hl] at hsplit
    cases hsplit
    exact ⟨rfl, hl⟩
  · rintro ⟨rfl, hbefore⟩
    exact hcut before after hbefore

/-- Two cuts at the first character of a kind are the same. -/
theorem append_cons_inj {c : Char} {s s' r r' : Str} (hs : c ∉ s) (hs' : c ∉ s') :
    s ++ c :: r = s' ++ c :: r' ↔ s = s' ∧ r = r' := by
  constructor
  · intro h
    have hcut : splitOnce c (s ++ c :: r) = some (s', r') :=
      splitOnce_eq_some.2 ⟨h, hs'⟩
    rw [splitOnce_eq_some.2 ⟨rfl, hs⟩] at hcut
    cases hcut
    exact ⟨rfl, rfl⟩
  · rintro ⟨rfl, rfl⟩
    rfl

/-! ## Trimming -/

theorem trimStart_cons {c : Char} (hc : isWhitespace c = false) (s : Str) :
    trimStart (c :: s) = c :: s :=
  dropWhile_cons_of_neg (by rw [hc]; exact Bool.false_ne_true)

theorem trimEnd_concat {c : Char} (hc : isWhitespace c = false) (s : Str) :
    trimEnd (s ++ [c]) = s ++ [c] :=
  rdropWhile_concat_neg _ _ _ (by rw [hc]; exact Bool.false_ne_true)

theorem trimEnd_concat_of_isWhitespace {c : Char} (hc : isWhitespace c = true) (s : Str) :
    trimEnd (s ++ [c]) = trimEnd s :=
  rdropWhile_concat_pos _ _ _ hc

/-- White space at the end is all of the last part and some of the first, or some of the last. -/
theorem trimEnd_append (a b : Str) :
    trimEnd (a ++ b) = if trimEnd b = [] then trimEnd a else a ++ trimEnd b := by
  induction b using List.reverseRecOn with
  | nil =>
    have hnil : trimEnd [] = [] := rfl
    rw [append_nil, if_pos hnil]
  | append_singleton b c ih =>
    rw [← append_assoc]
    cases hc : isWhitespace c with
    | true => rw [trimEnd_concat_of_isWhitespace hc, trimEnd_concat_of_isWhitespace hc, ih]
    | false =>
      rw [trimEnd_concat hc, trimEnd_concat hc, append_assoc, if_neg]
      exact append_ne_nil_of_right_ne_nil _ (cons_ne_nil _ _)

theorem trim_cons {c : Char} (hc : isWhitespace c = false) (s : Str) :
    trim (c :: s) = trimEnd (c :: s) := by
  rw [trim, trimStart_cons hc]

theorem trim_cons_ne_nil {c : Char} (hc : isWhitespace c = false) (s : Str) :
    trim (c :: s) ≠ [] := by
  have hend : trimEnd [c] = [c] := trimEnd_concat hc []
  rw [trim_cons hc, ← singleton_append, trimEnd_append]
  split
  · rw [hend]
    exact cons_ne_nil _ _
  · exact cons_ne_nil _ _

theorem trim_trim (s : Str) : trim (trim s) = trim s := by
  rw [trim, trim]
  cases hstart : trimStart s with
  | nil => rfl
  | cons c r =>
    have hc : isWhitespace c = false := by
      have hhead := List.head?_dropWhile_not isWhitespace s
      rwa [← trimStart, hstart] at hhead
    have hend : ∃ r', trimEnd (c :: r) = c :: r' := by
      rw [← singleton_append, trimEnd_append]
      split
      · exact ⟨[], trimEnd_concat hc []⟩
      · exact ⟨_, rfl⟩
    obtain ⟨r', hr'⟩ := hend
    rw [hr', trimStart_cons hc, ← hr']
    exact rdropWhile_idempotent _ _

/-- Nothing is trimmed of a text between two characters that are no white space, but what
follows it. -/
theorem trim_between {c d : Char} (hc : isWhitespace c = false) (hd : isWhitespace d = false)
    (s : Str) {w : Str} (hw : ∀ e ∈ w, isWhitespace e = true) :
    trim (c :: (s ++ d :: w)) = c :: (s ++ [d]) := by
  have hnil : trimEnd w = [] := rdropWhile_eq_nil_iff.2 hw
  have happend : c :: (s ++ d :: w) = (c :: s ++ [d]) ++ w := by
    rw [append_assoc]
    rfl
  rw [trim_cons hc, happend, trimEnd_append, if_pos hnil, trimEnd_concat hd]
  rfl

/-! ## A text that goes on -/

/-- The lines before a newline, and those after it. -/
theorem lines_append_newline (s t : Str) :
    lines (s ++ '\n' :: t) = (split '\n' s).map chomp ++ lines t := by
  have hne : split '\n' t ≠ [] := splitOn_ne_nil '\n' t
  have hsplit : split '\n' (s ++ '\n' :: t) = split '\n' s ++ split '\n' t :=
    splitOn_append_cons_self s t
  rw [lines, lines, hsplit, dropLast_append_of_ne_nil hne, List.getLast?_append_of_ne_nil _ hne,
    map_append, append_assoc]
  rfl

theorem mem_map_chomp {s l : Str} (hl : l ∈ lines s) (hchomp : chomp l = l) :
    l ∈ (split '\n' s).map chomp := by
  rw [lines, mem_append] at hl
  rcases hl with hl | hl
  · obtain ⟨piece, hpiece, rfl⟩ := mem_map.1 hl
    exact mem_map_of_mem (dropLast_subset _ hpiece)
  · cases hlast : (split '\n' s).getLast? with
    | none => simp [hlast] at hl
    | some last =>
      simp only [hlast, Option.getD_some] at hl
      split at hl
      · cases hl
      · obtain rfl := mem_singleton.1 hl
        exact hchomp ▸ mem_map_of_mem (mem_of_getLast? hlast)

/-- A line stays one, if what follows is no part of it. -/
theorem mem_lines_append {s t l : Str} (hl : l ∈ lines s) (hchomp : chomp l = l)
    (h : t ≠ [] → endsWith s "\n" = true ∨ t.head? = some '\n') : l ∈ lines (s ++ t) := by
  by_cases ht : t = []
  · rwa [ht, append_nil]
  rcases h ht with h | h
  · obtain ⟨r, rfl⟩ := endsWith_iff.1 h
    have hline : l ∈ lines (r ++ '\n' :: []) := hl
    have hnil : lines [] = [] := by decide
    rw [lines_append_newline, hnil, append_nil] at hline
    rw [append_assoc]
    exact (lines_append_newline r t).symm ▸ mem_append_left _ hline
  · obtain ⟨rest, rfl⟩ := List.head?_eq_some_iff.1 h
    rw [lines_append_newline]
    exact mem_append_left _ (mem_map_chomp hl hchomp)

theorem notMem_join {sep : Str} {parts : List Str} {c : Char} (hsep : c ∉ sep)
    (h : ∀ part ∈ parts, c ∉ part) : c ∉ join sep parts := by
  rw [join]
  induction parts with
  | nil => simp
  | cons part rest ih =>
    have hpart := h part mem_cons_self
    have hrest := ih fun part hpart => h part (mem_cons_of_mem _ hpart)
    cases rest with
    | nil => rwa [intercalate_singleton]
    | cons next rest => simp [intercalate_cons_cons, hsep, hpart, hrest]

end Str
