import SheriMl.Utils.DiffHeader

/-!
# Paths read back from a header

Which pairs of paths are read back from the header that git writes for them
(`extractPaths_diffHeader_iff`). A path is lost if it is bare and has a space, if it has a character
that is not ASCII, which comes back as one character for each byte, if it ends in white space, or if
it is `dev/null`.
-/

namespace SheriMl.GitApply

open List

open Str (asBytes isWhitespace)

/-! ## Normalization -/

def kept (path : Str) : Option Str :=
  if Str.trimEnd path = [] ∨ Str.trimEnd path = ("dev/null" : Str) then none
  else some (Str.trimEnd path)

theorem normalizeDiffPath_eq {side : Char} (hside : IsSide side) (path : Str) :
    normalizeDiffPath (side :: '/' :: path) [side, '/'] = kept path := by
  obtain ⟨hspace, -, -, hslash⟩ := hside.spec
  have htrim : Str.trim (side :: '/' :: path) = side :: '/' :: Str.trimEnd path := by
    have happend := Str.trimEnd_append [side, '/'] path
    have hpre : Str.trimEnd [side, '/'] = [side, '/'] := Str.trimEnd_concat (by decide) [side]
    rw [Str.trim_cons hspace]
    rw [hpre] at happend
    refine happend.trans ?_
    split
    · next hnil => rw [hnil]
    · rfl
  have hroot : side :: '/' :: Str.trimEnd path ≠ ("/dev/null" : Str) := by
    intro heq
    exact hslash (List.cons.inj heq).1
  have hnull : side :: '/' :: Str.trimEnd path = [side, '/'] ++ ("dev/null" : Str) ↔
      Str.trimEnd path = ("dev/null" : Str) :=
    append_right_inj [side, '/']
  have hstrip : Str.stripPrefix (side :: '/' :: Str.trimEnd path) [side, '/'] =
      some (Str.trimEnd path) := Str.stripPrefix_eq_some.2 rfl
  rw [normalizeDiffPath, htrim, kept]
  simp only [cons_ne_nil, if_false, hroot, false_or, hnull, hstrip, Option.getD_some]
  by_cases hdev : Str.trimEnd path = ("dev/null" : Str)
  · rw [if_pos hdev, if_pos (.inr hdev)]
  · rw [if_neg hdev]
    simp only [hdev, or_false]

theorem trimEnd_trimEnd (s : Str) : Str.trimEnd (Str.trimEnd s) = Str.trimEnd s :=
  rdropWhile_idempotent _ _

/-- The end of a text that ends in no white space ends in none. -/
theorem trimEnd_of_append {pre path : Str} (hne : path ≠ [])
    (h : Str.trimEnd (pre ++ path) = pre ++ path) : Str.trimEnd path = path := by
  rw [Str.trimEnd_append] at h
  split at h
  · have hle := (List.rdropWhile_prefix isWhitespace pre).length_le
    have hpos := length_pos_iff.2 hne
    have hlen := congrArg List.length h
    rw [Str.trimEnd, length_append] at hlen
    omega
  · exact append_cancel_left h

/-- What is kept has characters of what was read, and no white space at its end. -/
theorem normalizeDiffPath_spec {raw pre path : Str} (h : normalizeDiffPath raw pre = some path) :
    path ⊆ raw ∧ Str.trimEnd path = path := by
  rw [normalizeDiffPath] at h
  simp only [Option.ite_none_left_eq_some, Option.some.injEq] at h
  obtain ⟨-, -, hne, rfl⟩ := h
  have hend : Str.trimEnd (Str.trim raw) = Str.trim raw := trimEnd_trimEnd _
  have hraw : Str.trim raw ⊆ raw := fun c hc => Str.mem_of_mem_trim hc
  cases hstrip : Str.stripPrefix (Str.trim raw) pre with
  | none => exact ⟨hraw, hend⟩
  | some path =>
    rw [hstrip, Option.getD_some] at hne
    rw [Str.stripPrefix_eq_some.1 hstrip] at hraw hend
    exact ⟨fun c hc => hraw (mem_append_right _ hc), trimEnd_of_append hne hend⟩

/-! ## The paths of a header -/

theorem mem_insertPath {path x : Str} {paths : List Str} :
    x ∈ insertPath path paths ↔ x = path ∨ x ∈ paths := by
  induction paths with
  | nil => exact mem_cons
  | cons first paths ih =>
    rw [insertPath]
    split
    · next heq =>
      subst heq
      simp
    · split
      · exact mem_cons
      · rw [mem_cons, mem_cons, ih]
        exact or_left_comm

theorem mem_insertNormalized {raw pre x : Str} {paths : List Str} :
    x ∈ insertNormalized paths raw pre ↔ normalizeDiffPath raw pre = some x ∨ x ∈ paths := by
  rw [insertNormalized]
  cases normalizeDiffPath raw pre with
  | none => simp
  | some path => rw [mem_insertPath, Option.some_inj, eq_comm]

theorem newline_notMem_quotePath {side : Char} (hside : IsSide side) (path : Str) :
    '\n' ∉ quotePath side path := by
  have hletter : '\n' ≠ side := by
    rcases hside with rfl | rfl <;> decide
  rw [quotePath]
  split
  · simp only [mem_cons, mem_append, mem_flatMap, not_mem_nil, or_false, not_or]
    refine ⟨by decide, hletter, by decide, ?_, by decide⟩
    rintro ⟨b, -, hmem⟩
    have hdigit {n : Nat} (hn : n < 8) : '\n' ≠ octalChar n := by
      obtain ⟨-, -, -, -, -, hne⟩ := octalChar_spec hn
      exact hne.symm
    rcases quoteByte_cases b with ⟨letter, hquote, -, hne⟩ | hquote | ⟨hquote, hplain⟩
    · rw [hquote] at hmem
      simp [hne.symm] at hmem
    · have hlt := b.toNat_lt
      rw [hquote] at hmem
      simp only [mem_cons, not_mem_nil, or_false] at hmem
      rcases hmem with hmem | hmem | hmem | hmem
      · cases hmem
      · exact hdigit (by omega) hmem
      · exact hdigit (by omega) hmem
      · exact hdigit (by omega) hmem
    · rw [hquote, mem_singleton] at hmem
      have hrange := ne_of_needsQuote hplain
      rw [← toNat_byteChar, ← hmem] at hrange
      exact absurd hrange.1 (by decide)
  · next hquoted =>
    simp only [mem_cons, not_or]
    refine ⟨hletter, by decide, fun hmem => ?_⟩
    exact absurd (char_of_not_isQuoted hquoted hmem).1 (by decide)

theorem lines_of_notMem {s : Str} (h : '\n' ∉ s) (hne : s ≠ []) : Str.lines s = [s] := by
  have hlines := Str.lines_join (fun l (hl : l ∈ []) => absurd hl not_mem_nil) h hne
  have hjoin : Str.join "\n" ([] ++ [s]) = s := append_nil s
  rwa [hjoin] at hlines

theorem trimEnd_quotePath_ne_nil {side : Char} (hside : IsSide side) (path : Str) :
    Str.trimEnd (quotePath side path) ≠ [] := by
  rw [trimEnd_quotePath hside, quotePath]
  split <;> exact cons_ne_nil _ _

theorem headerStart_eq : headerStart = 'd' :: ("iff --git " : Str) := by decide

theorem trim_diffHeader (a b : Str) :
    Str.trim (diffHeader a b) = headerStart ++
      (quotePath 'a' a ++ ' ' :: Str.trimEnd (quotePath 'b' b)) := by
  have hend := Str.trimEnd_append (headerStart ++ (quotePath 'a' a ++ [' ']))
    (quotePath 'b' b)
  rw [if_neg (trimEnd_quotePath_ne_nil (.inr rfl) b)] at hend
  have hheader : diffHeader a b =
      headerStart ++ (quotePath 'a' a ++ [' ']) ++ quotePath 'b' b := by
    rw [diffHeader, append_assoc, append_assoc, singleton_append]
  have hstart (s : Str) : Str.trim (headerStart ++ s) = Str.trimEnd (headerStart ++ s) := by
    rw [headerStart_eq, cons_append, Str.trim_cons (by decide)]
  rw [hheader, append_assoc, hstart, ← append_assoc, hend, append_assoc,
    append_assoc, singleton_append]

/-- The paths that are read from a header are those of its two tokens. -/
theorem mem_extractPaths {a b x : Str} :
    x ∈ extractPathsFromPatch (diffHeader a b) ↔
      ∃ first second,
        parseDiffGitPaths (quotePath 'a' a ++ ' ' :: Str.trimEnd (quotePath 'b' b)) =
          some (first, second) ∧
        (normalizeDiffPath first "a/" = some x ∨ normalizeDiffPath second "b/" = some x) := by
  have hnewline : '\n' ∉ diffHeader a b := by
    simp only [diffHeader, mem_append, mem_cons, not_or]
    exact ⟨by decide, newline_notMem_quotePath (.inl rfl) a, by decide,
      newline_notMem_quotePath (.inr rfl) b⟩
  have hne : diffHeader a b ≠ [] := by
    rw [diffHeader, headerStart_eq]
    exact cons_ne_nil _ _
  rw [extractPathsFromPatch, lines_of_notMem hnewline hne, foldl_cons, foldl_nil,
    addLine, trim_diffHeader, Str.stripPrefix_eq_some.2 rfl, Option.bind_some]
  cases parseDiffGitPaths (quotePath 'a' a ++ ' ' :: Str.trimEnd (quotePath 'b' b)) with
  | none => simp
  | some tokens =>
    obtain ⟨first, second⟩ := tokens
    dsimp only
    rw [mem_insertNormalized, mem_insertNormalized]
    simp only [not_mem_nil, or_false, Option.some.injEq, Prod.mk.injEq]
    constructor
    · intro h
      exact ⟨first, second, ⟨rfl, rfl⟩, h.symm⟩
    · rintro ⟨_, _, ⟨rfl, rfl⟩, h⟩
      exact h.symm

theorem parseDiffGitPaths_eq {line first left : Str}
    (h : readDiffGitToken line = some (first, left)) :
    parseDiffGitPaths line = (readDiffGitToken left).map fun token => (first, token.1) := by
  rw [parseDiffGitPaths, h]
  cases hleft : readDiffGitToken left <;> simp [hleft]

section

variable {a b x : Str}

/-- The first path of a header is kept or lost by itself, where it is a token. -/
theorem mem_extractPaths_iff {last left : Str} (ha : IsToken a)
    (hsecond : readDiffGitToken (Str.trimEnd (quotePath 'b' b)) =
      some ('b' :: '/' :: last, left)) :
    x ∈ extractPathsFromPatch (diffHeader a b) ↔
      kept (mangled a) = some x ∨ kept last = some x := by
  obtain ⟨rest, hfirst, hrest⟩ := readDiffGitToken_first (.inl rfl) ha
    (Str.trimEnd (quotePath 'b' b))
  rw [mem_extractPaths, parseDiffGitPaths_eq hfirst, hrest, hsecond, Option.map_some]
  simp only [Option.some.injEq, Prod.mk.injEq]
  rw [← normalizeDiffPath_eq (.inl rfl), ← normalizeDiffPath_eq (.inr rfl)]
  constructor
  · rintro ⟨_, _, ⟨rfl, rfl⟩, h⟩
    exact h
  · intro h
    exact ⟨_, _, ⟨rfl, rfl⟩, h⟩

theorem mem_extractPaths_of_isToken (ha : IsToken a) (hb : IsToken b) :
    x ∈ extractPathsFromPatch (diffHeader a b) ↔
      kept (mangled a) = some x ∨ kept (mangled b) = some x := by
  obtain ⟨left, hsecond⟩ := readDiffGitToken_last (.inr rfl) hb
  exact mem_extractPaths_iff ha hsecond

theorem mem_extractPaths_of_last (ha : IsToken a) (hb : ¬ IsToken b) :
    x ∈ extractPathsFromPatch (diffHeader a b) ↔
      kept (mangled a) = some x ∨
        kept ((Str.trimEnd b).takeWhile fun c => !isWhitespace c) = some x := by
  have hquoted : ¬ IsQuoted b := fun h => hb (.inl h)
  have hsecond := readDiffGitToken_bare (.inr rfl) (Str.trimEnd b)
  apply mem_extractPaths_iff ha
  rw [trimEnd_quotePath (.inr rfl), if_neg hquoted]
  exact hsecond

end

/-! ## Characters that are not ASCII -/

/-- A character that is neither ASCII nor white space. -/
def isHeavy (c : Char) : Bool := 128 ≤ c.toNat && !isWhitespace c

/-- How many such characters a path has. -/
def weight (path : Str) : Nat := path.countP isHeavy

theorem weight_append (s t : Str) : weight (s ++ t) = weight s + weight t := countP_append

theorem mangled_append (s t : Str) : mangled (s ++ t) = mangled s ++ mangled t := by
  rw [mangled, Str.asBytes_append, map_append]
  rfl

theorem weight_trimEnd (s : Str) : weight (Str.trimEnd s) = weight s := by
  induction s using List.reverseRecOn with
  | nil => rfl
  | append_singleton s c ih =>
    cases hc : isWhitespace c with
    | true =>
      have hlight : isHeavy c = false := by
        rw [isHeavy, hc]
        exact Bool.and_false _
      rw [Str.trimEnd_concat_of_isWhitespace hc, ih, weight_append]
      simp [weight, hlight]
    | false => rw [Str.trimEnd_concat hc]

theorem mem_trimEnd {s : Str} {c : Char} (h : c ∈ s) (hc : isWhitespace c = false) :
    c ∈ Str.trimEnd s := by
  induction s using List.reverseRecOn with
  | nil => cases h
  | append_singleton s d ih =>
    cases hd : isWhitespace d with
    | true =>
      rw [Str.trimEnd_concat_of_isWhitespace hd]
      rcases mem_append.1 h with h | h
      · exact ih h
      · rw [mem_singleton.1 h, hd] at hc
        cases hc
    | false =>
      rwa [Str.trimEnd_concat hd]

theorem exists_lead {c : Char} (hc : 128 ≤ c.toNat) :
    ∃ b bytes, String.utf8EncodeChar c = b :: bytes ∧ 192 ≤ b.toNat := by
  have hnot : ¬ c.val.toNat ≤ 127 := Nat.not_le.2 hc
  simp only [String.utf8EncodeChar, if_neg hnot]
  split
  · exact ⟨_, _, rfl, by rw [UInt8.toNat_ofNat']; omega⟩
  · split
    · exact ⟨_, _, rfl, by rw [UInt8.toNat_ofNat']; omega⟩
    · exact ⟨_, _, rfl, by rw [UInt8.toNat_ofNat']; omega⟩

theorem isHeavy_byteChar {b : UInt8} (hb : 192 ≤ b.toNat) : isHeavy (byteChar b) = true := by
  have hlt := b.toNat_lt
  have hspace : isWhitespace (byteChar b) = false := by
    simp only [isWhitespace, toNat_byteChar, Bool.or_eq_false_iff, Bool.and_eq_false_iff,
      decide_eq_false_iff_not, beq_eq_false_iff_ne]
    omega
  rw [isHeavy, hspace, toNat_byteChar]
  simp only [Bool.not_false, Bool.and_true, decide_eq_true_eq]
  omega

/-- The bytes of the character that stands for such a byte: the first is always the same. -/
theorem utf8EncodeChar_byteChar {b : UInt8} (hb : 192 ≤ b.toNat) :
    ∃ bytes, String.utf8EncodeChar (byteChar b) = 195 :: bytes := by
  have hlt := b.toNat_lt
  have hval : (byteChar b).val.toNat = b.toNat := toNat_byteChar b
  have hfirst : b.toNat / 64 % 32 + 192 = 195 := by omega
  simp only [String.utf8EncodeChar, hval, if_neg (show ¬ b.toNat ≤ 127 by omega),
    if_pos (show b.toNat ≤ 2047 by omega), hfirst]
  exact ⟨_, rfl⟩

theorem mangled_singleton (c : Char) : mangled [c] = (String.utf8EncodeChar c).map byteChar := by
  rw [mangled, Str.asBytes_cons, Str.asBytes_nil, append_nil]

theorem weight_le_mangled (s : Str) : weight s ≤ weight (mangled s) := by
  induction s with
  | nil => exact Nat.le_refl _
  | cons c s ih =>
    have hc : weight [c] ≤ weight (mangled [c]) := by
      cases hheavy : isHeavy c with
      | false => simp [weight, hheavy]
      | true =>
        have hhigh : 128 ≤ c.toNat := by
          rw [isHeavy, Bool.and_eq_true, decide_eq_true_eq] at hheavy
          exact hheavy.1
        obtain ⟨b, bytes, hbytes, hb⟩ := exists_lead hhigh
        rw [mangled_singleton, hbytes]
        simp [weight, hheavy, isHeavy_byteChar hb]
    rw [← singleton_append, mangled_append, weight_append, weight_append]
    exact Nat.add_le_add hc ih

theorem weight_lt_mangled {s : Str} (h : byteChar 195 ∈ s) : weight s < weight (mangled s) := by
  obtain ⟨s₁, s₂, rfl⟩ := append_of_mem h
  have hbefore := weight_le_mangled s₁
  have hafter := weight_le_mangled s₂
  have hone : weight [byteChar 195] = 1 := by decide
  have htwo : weight (mangled [byteChar 195]) = 2 := by decide
  rw [← singleton_append, mangled_append, mangled_append, weight_append, weight_append,
    weight_append, weight_append]
  omega

/-- A character that is not ASCII comes back with a first byte that is not trimmed. -/
theorem exists_lead_mem {s : Str} {c : Char} (h : c ∈ s) (hc : 128 ≤ c.toNat) :
    ∃ b bytes, String.utf8EncodeChar c = b :: bytes ∧ 192 ≤ b.toNat ∧
      byteChar b ∈ Str.trimEnd (mangled s) := by
  obtain ⟨b, bytes, hbytes, hb⟩ := exists_lead hc
  refine ⟨b, bytes, hbytes, hb, mem_trimEnd ?_ ?_⟩
  · refine mem_map.2 ⟨b, mem_flatMap.2 ⟨c, h, ?_⟩, rfl⟩
    rw [hbytes]
    exact mem_cons_self
  · have hheavy := isHeavy_byteChar hb
    rw [isHeavy, Bool.and_eq_true, Bool.not_eq_true'] at hheavy
    exact hheavy.2

/-- Two paths that are read as each other are ASCII. -/
theorem ascii_of_swapped {p q : Str} (hp : Str.trimEnd (mangled p) = q)
    (hq : Str.trimEnd (mangled q) = p) : ∀ c ∈ p, c.toNat < 128 := by
  intro c hc
  by_contra hhigh
  -- the character goes to one with a first byte, and that to the one that weighs more
  obtain ⟨b, -, -, hb, hmem⟩ := exists_lead_mem hc (Nat.not_lt.1 hhigh)
  rw [hp] at hmem
  have hlead : 128 ≤ (byteChar b).toNat := by
    rw [toNat_byteChar]
    omega
  obtain ⟨b', bytes', hbytes', -, hmem'⟩ := exists_lead_mem hmem hlead
  obtain ⟨bytes, hbytes⟩ := utf8EncodeChar_byteChar hb
  rw [hbytes'] at hbytes
  obtain ⟨rfl, -⟩ := List.cons.inj hbytes
  rw [hq] at hmem'
  have hlt := weight_lt_mangled hmem'
  have hle := weight_le_mangled q
  rw [← weight_trimEnd (mangled p), hp] at hlt
  rw [← weight_trimEnd (mangled q), hq] at hle
  omega

/-! ## Which paths come back -/

/-- A path that is read back from a header as it is. -/
structure Recoverable (path : Str) : Prop where
  ascii : ∀ c ∈ path, c.toNat < 128
  token : IsToken path
  trimmed : Str.trimEnd path = path
  named : path ≠ [] ∧ path ≠ ("dev/null" : Str)

theorem kept_eq_some {path x : Str} :
    kept path = some x ↔ Str.trimEnd path = x ∧ x ≠ [] ∧ x ≠ ("dev/null" : Str) := by
  rw [kept, Option.ite_none_left_eq_some, not_or, Option.some_inj]
  constructor
  · rintro ⟨h, rfl⟩
    exact ⟨rfl, h⟩
  · rintro ⟨rfl, h⟩
    exact ⟨h, rfl⟩

theorem recoverable_iff {path : Str} :
    Recoverable path ↔ IsToken path ∧ kept (mangled path) = some path := by
  rw [kept_eq_some]
  constructor
  · rintro ⟨hascii, htoken, htrimmed, hnamed⟩
    exact ⟨htoken, by rw [mangled_of_ascii hascii]; exact htrimmed, hnamed⟩
  · rintro ⟨htoken, hkept, hnamed⟩
    have hascii := ascii_of_swapped hkept hkept
    rw [mangled_of_ascii hascii] at hkept
    exact ⟨hascii, htoken, hkept, hnamed⟩

/-! ## A first path with a space -/

def NoSingleQuote (s : Str) : Prop := '\'' ∉ unescapeCString (readQuoted '\'' s).1

theorem unescapeCString_nil : unescapeCString [] = [] := by
  rw [unescapeCString]

theorem NoSingleQuote.nil : NoSingleQuote [] := by
  rw [NoSingleQuote, readQuoted, unescapeCString_nil]
  exact not_mem_nil

theorem NoSingleQuote.cons {c : Char} (hslash : c ≠ '\\') {s : Str} (h : NoSingleQuote s) :
    NoSingleQuote (c :: s) := by
  by_cases hc : c = '\''
  · subst hc
    have hread : readQuoted '\'' ('\'' :: s) = ([], s) := by
      rw [readQuoted.eq_def]
      simp
    rw [NoSingleQuote, hread, unescapeCString_nil]
    exact not_mem_nil
  · rw [NoSingleQuote, readQuoted_cons hc hslash, unescapeCString_cons hslash, mem_cons,
      not_or]
    exact ⟨Ne.symm hc, h⟩

theorem NoSingleQuote.append {t : Str} (hslash : ∀ c ∈ t, c ≠ '\\') {s : Str}
    (h : NoSingleQuote s) : NoSingleQuote (t ++ s) := by
  induction t with
  | nil => exact h
  | cons c t ih =>
    obtain ⟨hc, ht⟩ := forall_mem_cons.1 hslash
    exact (ih ht).cons hc

theorem NoSingleQuote.flatMap (bytes : List UInt8) {s : Str} (h : NoSingleQuote s) :
    NoSingleQuote (bytes.flatMap quoteByte ++ s) := by
  induction bytes with
  | nil => exact h
  | cons b bytes ih =>
    rw [flatMap_cons, append_assoc]
    by_cases hb : byteChar b = '\''
    · have hnat : b.toNat = 39 := by
        rw [← toNat_byteChar, hb]
        rfl
      have hbyte : b = 39 := UInt8.toNat_inj.1 hnat
      have hquote : quoteByte b = ['\''] := by
        rw [hbyte]
        decide
      rw [hquote]
      exact ih.cons (by decide)
    · rw [NoSingleQuote, readQuoted_quoteByte (by decide) (fun _ => hb), unescapeCString_quoteByte,
        mem_cons, not_or]
      exact ⟨Ne.symm hb, ih⟩

theorem slash_notMem {path : Str} (h : ¬ IsQuoted path) : ∀ c ∈ path, c ≠ '\\' := by
  rintro c hc rfl
  exact (char_of_not_isQuoted h hc).2.2.1 rfl

theorem NoSingleQuote.quotePath (path : Str) :
    NoSingleQuote (Str.trimEnd (quotePath 'b' path)) := by
  rw [trimEnd_quotePath (.inr rfl)]
  split
  · next hquoted =>
    rw [GitApply.quotePath, if_pos hquoted]
    have hend : NoSingleQuote ['"'] := NoSingleQuote.nil.cons (by decide)
    exact (((hend.flatMap (asBytes path)).cons (by decide)).cons (by decide)).cons (by decide)
  · next hquoted =>
    have hpath : NoSingleQuote (Str.trimEnd path ++ []) := by
      refine NoSingleQuote.nil.append fun c hc => ?_
      exact slash_notMem hquoted c ((List.rdropWhile_prefix _ _).subset hc)
    rw [append_nil] at hpath
    exact (hpath.cons (by decide)).cons (by decide)

theorem readDiffGitToken_append_space {space : Str} (h : ∀ c ∈ space, isWhitespace c = true)
    (s : Str) : readDiffGitToken (space ++ s) = readDiffGitToken s := by
  induction space with
  | nil => rfl
  | cons c space ih =>
    obtain ⟨hc, hspace⟩ := forall_mem_cons.1 h
    rw [cons_append, readDiffGitToken_of_space hc, ih hspace]

/-- The token after a first path that was cut at a space does not have all of the path. -/
theorem second_not_superset {u v rest second left : Str} (hbare : ¬ IsQuoted (u ++ ' ' :: v))
    (htrimmed : Str.trimEnd (u ++ ' ' :: v) = u ++ ' ' :: v) (hrest : NoSingleQuote (' ' :: rest))
    (h : readDiffGitToken (v ++ ' ' :: rest) = some (second, left)) :
    ¬ u ++ ' ' :: v ⊆ second := by
  intro hsub
  have hv := takeWhile_append_dropWhile (p := isWhitespace) (l := v)
  have hblank : ∀ c ∈ v.takeWhile isWhitespace, isWhitespace c = true :=
    fun c hc => mem_takeWhile_imp hc
  cases hdrop : v.dropWhile isWhitespace with
  | nil =>
    -- the path ends in spaces
    have hall : ∀ c ∈ ' ' :: v, isWhitespace c = true :=
      forall_mem_cons.2 ⟨by decide, dropWhile_eq_nil_iff.1 hdrop⟩
    have hnil : Str.trimEnd (' ' :: v) = [] := rdropWhile_eq_nil_iff.2 hall
    rw [trimEnd_of_append (cons_ne_nil _ _) htrimmed] at hnil
    cases hnil
  | cons c w =>
    have hc : isWhitespace c = false := by
      have hhead := List.head?_dropWhile_not isWhitespace v
      rwa [hdrop] at hhead
    rw [hdrop] at hv
    have hmem : c ∈ u ++ ' ' :: v := by
      rw [← hv]
      simp
    rw [← hv, append_assoc, readDiffGitToken_append_space hblank, cons_append] at h
    cases hquote : isQuote c with
    | false =>
      rw [readDiffGitToken_of_bare hc hquote, readBare_eq, Option.some_inj, Prod.mk.injEq] at h
      have hspace : ' ' ∈ second := hsub (mem_append_right _ mem_cons_self)
      rw [← h.1] at hspace
      exact absurd (mem_takeWhile_imp hspace) (by decide)
    | true =>
      rw [readDiffGitToken_of_quote hc hquote, Option.some_inj, Prod.mk.injEq] at h
      have hdouble : c ≠ '"' := by
        rintro rfl
        exact (char_of_not_isQuoted hbare hmem).2.1 rfl
      obtain rfl : c = '\'' := by
        rw [isQuote, Bool.or_eq_true, beq_iff_eq, beq_iff_eq] at hquote
        exact hquote.resolve_left hdouble
      have hw : ∀ d ∈ w, d ≠ '\\' := by
        intro d hd
        refine slash_notMem hbare d ?_
        rw [← hv]
        simp [hd]
      have hsingle : '\'' ∈ second := hsub hmem
      rw [← h.1] at hsingle
      exact hrest.append hw hsingle

/-- A bare first path with a space is none of the paths that are read. -/
theorem notMem_extractPaths_of_first {a : Str} (ha : ¬ IsToken a) (b : Str) :
    a ∉ extractPathsFromPatch (diffHeader a b) := by
  rw [IsToken, not_or, not_not] at ha
  obtain ⟨hbare, hspace⟩ := ha
  obtain ⟨u, v, rfl, hu⟩ := eq_append_cons_of_mem hspace
  have hkeep : ∀ c ∈ u, (!isWhitespace c) = true := by
    intro c hc
    rw [Bool.not_eq_true', Bool.eq_false_iff]
    intro hblank
    obtain rfl := eq_space_of_isWhitespace hbare (mem_append_left _ hc) hblank
    exact hu hc
  rw [mem_extractPaths]
  rintro ⟨first, second, hparse, hread⟩
  have hfirst : readDiffGitToken (quotePath 'a' (u ++ ' ' :: v) ++
      ' ' :: Str.trimEnd (quotePath 'b' b)) =
        some ('a' :: '/' :: u, v ++ ' ' :: Str.trimEnd (quotePath 'b' b)) := by
    rw [quotePath, if_neg hbare, cons_append, cons_append, append_assoc,
      cons_append, readDiffGitToken_bare (.inl rfl),
      Str.takeWhile_append_cons hkeep (by decide), Str.dropWhile_append_cons hkeep (by decide)]
    rfl
  rw [parseDiffGitPaths_eq hfirst, Option.map_eq_some_iff] at hparse
  obtain ⟨⟨second', left⟩, hsecond, hpair⟩ := hparse
  cases hpair
  rcases hread with hread | hread
  · have hmem := (normalizeDiffPath_spec hread).1 hspace
    simp only [mem_cons] at hmem
    rcases hmem with hmem | hmem | hmem
    · cases hmem
    · cases hmem
    · exact hu hmem
  · obtain ⟨hsub, htrimmed⟩ := normalizeDiffPath_spec hread
    exact second_not_superset hbare htrimmed (.cons (by decide) (.quotePath b)) hsecond hsub

/-! ## Both paths -/

theorem not_both_of_last {a b : Str} (ha : IsToken a) (hb : ¬ IsToken b)
    (h : ∀ x, x ∈ extractPathsFromPatch (diffHeader a b) ↔ x = a ∨ x = b) : False := by
  have hmem {x : Str} := mem_extractPaths_of_last (x := x) ha hb
  have hspace : ' ' ∈ b ∧ ¬ IsQuoted b := by
    rw [IsToken, not_or, not_not] at hb
    exact hb.symm
  have hcut {x : Str}
      (hx : kept ((Str.trimEnd b).takeWhile fun c => !isWhitespace c) = some x) :
      x ⊆ b ∧ x.length ≤ b.length ∧ ' ' ∉ x := by
    obtain ⟨rfl, -⟩ := kept_eq_some.1 hx
    have hsub := (List.rdropWhile_prefix isWhitespace
      ((Str.trimEnd b).takeWhile fun c => !isWhitespace c)).sublist
    have hall := (hsub.trans (takeWhile_sublist _)).trans
      (List.rdropWhile_prefix isWhitespace b).sublist
    refine ⟨hall.subset, hall.length_le, fun hmem => ?_⟩
    exact absurd (mem_takeWhile_imp (hsub.subset hmem)) (by decide)
  -- the last path can only be the first token, and the first path the last token
  have hlast : kept (mangled a) = some b := by
    rcases hmem.1 ((h b).2 (.inr rfl)) with hfirst | hlast
    · exact hfirst
    · exact absurd hspace.1 (hcut hlast).2.2
  have hfirst : kept ((Str.trimEnd b).takeWhile fun c => !isWhitespace c) = some a := by
    rcases hmem.1 ((h a).2 (.inl rfl)) with hfirst | hfirst
    · rw [hlast, Option.some_inj] at hfirst
      rw [hfirst] at hb
      exact absurd ha hb
    · exact hfirst
  obtain ⟨hsub, hlength, hnone⟩ := hcut hfirst
  have hascii : ∀ c ∈ a, c.toNat < 128 := fun c hc => ascii_of_not_isQuoted hspace.2 c (hsub hc)
  obtain ⟨htrim, -⟩ := kept_eq_some.1 hlast
  rw [mangled_of_ascii hascii] at htrim
  have hfront := rdropWhile_prefix isWhitespace a
  rw [← Str.trimEnd, htrim] at hfront
  exact hnone (hfront.subset hspace.1)

theorem kept_of_both {a b : Str}
    (hfirst : kept (mangled a) = some a ∨ kept (mangled b) = some a)
    (hlast : kept (mangled a) = some b ∨ kept (mangled b) = some b) :
    kept (mangled a) = some a ∧ kept (mangled b) = some b := by
  rcases hfirst with hfirst | hfirst <;> rcases hlast with hlast | hlast
  · obtain rfl : a = b := Option.some_inj.1 (hfirst.symm.trans hlast)
    exact ⟨hfirst, hfirst⟩
  · exact ⟨hfirst, hlast⟩
  · obtain ⟨hab, -⟩ := kept_eq_some.1 hlast
    obtain ⟨hba, -⟩ := kept_eq_some.1 hfirst
    have ha := ascii_of_swapped hab hba
    have hb := ascii_of_swapped hba hab
    rw [mangled_of_ascii ha] at hab
    rw [mangled_of_ascii hb] at hba
    obtain rfl : a = b := by rw [← hba, ← hab, trimEnd_trimEnd]
    exact ⟨hlast, hlast⟩
  · obtain rfl : a = b := Option.some_inj.1 (hfirst.symm.trans hlast)
    exact ⟨hfirst, hfirst⟩

/-- The header that git writes for two paths gives exactly these two, if and only if each of them
is ASCII, quoted or without a space, not empty or `dev/null`, and does not end in white space. -/
theorem extractPaths_diffHeader_iff (a b : Str) :
    (∀ x, x ∈ extractPathsFromPatch (diffHeader a b) ↔ x = a ∨ x = b) ↔
      Recoverable a ∧ Recoverable b := by
  constructor
  · intro h
    have ha : IsToken a := by
      by_contra ha
      exact notMem_extractPaths_of_first ha b ((h a).2 (.inl rfl))
    have hb : IsToken b := by
      by_contra hb
      exact not_both_of_last ha hb h
    have hmem {x : Str} := mem_extractPaths_of_isToken (x := x) ha hb
    have hkept := kept_of_both (hmem.1 ((h a).2 (.inl rfl))) (hmem.1 ((h b).2 (.inr rfl)))
    exact ⟨recoverable_iff.2 ⟨ha, hkept.1⟩, recoverable_iff.2 ⟨hb, hkept.2⟩⟩
  · rintro ⟨ha, hb⟩ x
    rw [mem_extractPaths_of_isToken ha.token hb.token, (recoverable_iff.1 ha).2,
      (recoverable_iff.1 hb).2, Option.some_inj, Option.some_inj, eq_comm, eq_comm (a := b)]

/-- A path with a space is read as its first two words. -/
theorem extractPaths_helloWorld :
    extractPathsFromPatch (diffHeader "hello world.txt" "hello world.txt") =
        ["hello", "world.txt"].map String.toList ∧
      ("hello world.txt" : Str) ∉
        extractPathsFromPatch (diffHeader "hello world.txt" "hello world.txt") := by
  decide

end SheriMl.GitApply
