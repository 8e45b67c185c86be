import SheriMl.Utils.DiffPaths

/-!
# The header of a diff

The `diff --git` line that git writes for two paths, and what its tokens are read as. A quoted path
is read byte by byte, each as the character of its number (`mangled`); a bare one ends at its first
space.
-/

namespace SheriMl.GitApply

open List

open Str (asBytes isWhitespace)

/-! ## What git writes -/

/-- The bytes that a path is quoted for: of control characters, the double quote, the backslash and
all that are not ASCII. -/
def needsQuote (b : UInt8) : Bool := b < 32 || b == 34 || b == 92 || 127 ≤ b

def escapeLetter : UInt8 → Option Char
  | 7 => some 'a'
  | 8 => some 'b'
  | 9 => some 't'
  | 10 => some 'n'
  | 11 => some 'v'
  | 12 => some 'f'
  | 13 => some 'r'
  | 34 => some '"'
  | 92 => some '\\'
  | _ => none

def octalChar (n : Nat) : Char := Char.ofNat (48 + n)

/-- The character with the number of a byte. -/
def byteChar (b : UInt8) : Char := Char.ofNat b.toNat

def quoteByte (b : UInt8) : Str :=
  match escapeLetter b with
  | some letter => ['\\', letter]
  | none =>
    if needsQuote b then
      ['\\', octalChar (b.toNat / 64), octalChar (b.toNat / 8 % 8), octalChar (b.toNat % 8)]
    else [byteChar b]

def IsQuoted (path : Str) : Prop := (asBytes path).any needsQuote = true

instance (path : Str) : Decidable (IsQuoted path) := inferInstanceAs (Decidable (_ = true))

def quotePath (side : Char) (path : Str) : Str :=
  if IsQuoted path then '"' :: side :: '/' :: ((asBytes path).flatMap quoteByte ++ ['"'])
  else side :: '/' :: path

/-- The header for two paths. -/
def diffHeader (a b : Str) : Str :=
  headerStart ++ (quotePath 'a' a ++ ' ' :: quotePath 'b' b)

/-! ## Bytes read back -/

theorem toNat_byteChar (b : UInt8) : (byteChar b).toNat = b.toNat := by
  have hlt := b.toNat_lt
  have hvalid : b.toNat.isValidChar := .inl (by omega)
  rw [byteChar, Char.ofNat, dif_pos hvalid]
  rfl

theorem byteChar_ne {b : UInt8} {c : Char} (h : b.toNat ≠ c.toNat) : byteChar b ≠ c := by
  rintro rfl
  exact h (toNat_byteChar b).symm

/-- The three ways to write a byte. -/
theorem quoteByte_cases (b : UInt8) :
    (∃ letter, quoteByte b = ['\\', letter] ∧ escaped letter = some (byteChar b) ∧
      letter ≠ '\n') ∨
    (quoteByte b = ['\\', octalChar (b.toNat / 64), octalChar (b.toNat / 8 % 8),
      octalChar (b.toNat % 8)]) ∨
    (quoteByte b = [byteChar b] ∧ needsQuote b = false) := by
  rw [quoteByte]
  cases hletter : escapeLetter b with
  | some letter =>
    refine .inl ⟨letter, rfl, ?_⟩
    unfold escapeLetter at hletter
    split at hletter <;> cases hletter <;> exact ⟨rfl, by decide⟩
  | none =>
    dsimp only
    split
    · exact .inr (.inl rfl)
    · next hquote => exact .inr (.inr ⟨rfl, by simpa using hquote⟩)

/-- A byte that is written as it is. -/
theorem ne_of_needsQuote {b : UInt8} (h : needsQuote b = false) :
    32 ≤ b.toNat ∧ b.toNat ≠ 34 ∧ b.toNat ≠ 92 ∧ b.toNat < 127 := by
  simp only [needsQuote, Bool.or_eq_false_iff, decide_eq_false_iff_not, beq_eq_false_iff_ne,
    UInt8.not_lt, UInt8.not_le, ne_eq] at h
  obtain ⟨⟨⟨hlow, hquote⟩, hslash⟩, hhigh⟩ := h
  refine ⟨hlow, fun h => hquote ?_, fun h => hslash ?_, hhigh⟩
  · exact UInt8.toNat_inj.1 h
  · exact UInt8.toNat_inj.1 h

theorem octalChar_spec {n : Nat} (hn : n < 8) :
    isOctalDigit (octalChar n) = true ∧ octalDigit (octalChar n) = n ∧
      escaped (octalChar n) = none ∧ isQuote (octalChar n) = false ∧ octalChar n ≠ '\\' ∧
      octalChar n ≠ '\n' := by
  have hall : ∀ n ∈ List.range 8, isOctalDigit (octalChar n) = true ∧
      octalDigit (octalChar n) = n ∧ escaped (octalChar n) = none ∧
      isQuote (octalChar n) = false ∧ octalChar n ≠ '\\' ∧ octalChar n ≠ '\n' := by
    decide
  exact hall n (mem_range.2 hn)


theorem readEscape_octal (b : UInt8) (rest : Str) :
    readEscape (octalChar (b.toNat / 64))
        (octalChar (b.toNat / 8 % 8) :: octalChar (b.toNat % 8) :: rest) =
      ([byteChar b], rest) := by
  have hlt := b.toNat_lt
  obtain ⟨hdigit₁, hvalue₁, hnone, -⟩ := octalChar_spec (n := b.toNat / 64) (by omega)
  obtain ⟨hdigit₂, hvalue₂, -⟩ := octalChar_spec (n := b.toNat / 8 % 8) (by omega)
  obtain ⟨hdigit₃, hvalue₃, -⟩ := octalChar_spec (n := b.toNat % 8) (by omega)
  have hvalue : (b.toNat / 64 * 8 + b.toNat / 8 % 8) * 8 + b.toNat % 8 = b.toNat := by omega
  have hvalid : b.toNat.isValidChar := .inl (by omega)
  rw [readEscape, hnone]
  dsimp only
  rw [if_pos hdigit₁]
  simp [hdigit₂, hdigit₃, hvalue₁, hvalue₂, hvalue₃, hvalue, hvalid, byteChar]

theorem unescapeCString_cons {c : Char} (hc : c ≠ '\\') (rest : Str) :
    unescapeCString (c :: rest) = c :: unescapeCString rest := by
  rw [unescapeCString.eq_def]
  simp [hc]

theorem unescapeCString_escape (next : Char) (rest : Str) :
    unescapeCString ('\\' :: next :: rest) =
      (readEscape next rest).1 ++ unescapeCString (readEscape next rest).2 := by
  rw [unescapeCString.eq_def]
  simp

theorem unescapeCString_quoteByte (b : UInt8) (rest : Str) :
    unescapeCString (quoteByte b ++ rest) = byteChar b :: unescapeCString rest := by
  rcases quoteByte_cases b with ⟨letter, hquote, hletter, -⟩ | hquote | ⟨hquote, hplain⟩
  · have hread : readEscape letter rest = ([byteChar b], rest) := by
      rw [readEscape, hletter]
    rw [hquote, cons_append, cons_append, unescapeCString_escape, nil_append, hread]
    rfl
  · rw [hquote]
    simp only [cons_append, nil_append]
    rw [unescapeCString_escape, readEscape_octal]
    rfl
  · have hslash : byteChar b ≠ '\\' := byteChar_ne (ne_of_needsQuote hplain).2.2.1
    rw [hquote, singleton_append, unescapeCString_cons hslash]

theorem unescapeCString_flatMap (bytes : List UInt8) (rest : Str) :
    unescapeCString (bytes.flatMap quoteByte ++ rest) =
      bytes.map byteChar ++ unescapeCString rest := by
  induction bytes with
  | nil => rfl
  | cons b bytes ih =>
    rw [flatMap_cons, append_assoc, unescapeCString_quoteByte, ih, map_cons,
      cons_append]

/-! ## Tokens read back -/

theorem readQuoted_cons {q c : Char} (hc : c ≠ q) (hslash : c ≠ '\\') (rest : Str) :
    readQuoted q (c :: rest) = (c :: (readQuoted q rest).1, (readQuoted q rest).2) := by
  rw [readQuoted.eq_def]
  simp [hc, hslash]

theorem readQuoted_escape {q : Char} (hq : '\\' ≠ q) (next : Char) (rest : Str) :
    readQuoted q ('\\' :: next :: rest) =
      ('\\' :: next :: (readQuoted q rest).1, (readQuoted q rest).2) := by
  rw [readQuoted.eq_def]
  simp [hq]

theorem ne_of_isQuote {q c : Char} (hq : isQuote q = true) (hc : isQuote c = false) : c ≠ q := by
  rintro rfl
  rw [hq] at hc
  cases hc

theorem readQuoted_quoteByte {q : Char} (hq : isQuote q = true) {b : UInt8}
    (hb : needsQuote b = false → byteChar b ≠ q) (rest : Str) :
    readQuoted q (quoteByte b ++ rest) =
      (quoteByte b ++ (readQuoted q rest).1, (readQuoted q rest).2) := by
  have hslash : '\\' ≠ q := ne_of_isQuote hq (by decide)
  have hdigit {n : Nat} (hn : n < 8) (rest : Str) : readQuoted q (octalChar n :: rest) =
      (octalChar n :: (readQuoted q rest).1, (readQuoted q rest).2) := by
    obtain ⟨-, -, -, hquote, hne, -⟩ := octalChar_spec hn
    exact readQuoted_cons (ne_of_isQuote hq hquote) hne rest
  rcases quoteByte_cases b with ⟨letter, hquote, -⟩ | hquote | ⟨hquote, hplain⟩
  · rw [hquote]
    exact readQuoted_escape hslash letter rest
  · rw [hquote]
    simp only [cons_append, nil_append]
    rw [readQuoted_escape hslash, hdigit (by omega), hdigit (by omega)]
  · rw [hquote, singleton_append]
    exact readQuoted_cons (hb hplain) (byteChar_ne (ne_of_needsQuote hplain).2.2.1) rest

theorem readQuoted_flatMap (bytes : List UInt8) (rest : Str) :
    readQuoted '"' (bytes.flatMap quoteByte ++ '"' :: rest) = (bytes.flatMap quoteByte, rest) := by
  induction bytes with
  | nil =>
    rw [flatMap_nil, nil_append, readQuoted.eq_def]
    simp
  | cons b bytes ih =>
    have hquote : needsQuote b = false → byteChar b ≠ '"' :=
      fun h => byteChar_ne (ne_of_needsQuote h).2.1
    rw [flatMap_cons, append_assoc, readQuoted_quoteByte (by decide) hquote, ih]

theorem readBare_eq (s : Str) :
    readBare s = (s.takeWhile fun c => !isWhitespace c,
      (s.dropWhile fun c => !isWhitespace c).drop 1) := by
  induction s with
  | nil => rfl
  | cons c s ih =>
    rw [readBare]
    cases hc : isWhitespace c with
    | true => simp [hc]
    | false => simp [hc, ih]

/-- The characters of a path's bytes, one for each byte. -/
def mangled (path : Str) : Str := (asBytes path).map byteChar

theorem asBytes_eq_of_ascii {s : Str} (h : ∀ c ∈ s, c.toNat < 128) :
    asBytes s = s.map fun c => UInt8.ofNat c.toNat := by
  induction s with
  | nil => rfl
  | cons c s ih =>
    obtain ⟨hc, hs⟩ := forall_mem_cons.1 h
    rw [Str.asBytes_cons, Str.utf8EncodeChar_of_le (by omega), ih hs]
    rfl

theorem mangled_of_ascii {s : Str} (h : ∀ c ∈ s, c.toNat < 128) : mangled s = s := by
  rw [mangled, asBytes_eq_of_ascii h, map_map]
  refine map_congr_left (fun c hc => ?_) |>.trans (map_id s)
  have hlt := h c hc
  have hbyte : (UInt8.ofNat c.toNat).toNat = c.toNat := by
    rw [UInt8.toNat_ofNat']
    omega
  rw [Function.comp_apply, byteChar, hbyte, Char.ofNat_toNat]
  rfl

theorem char_of_not_isQuoted {path : Str} (h : ¬ IsQuoted path) {c : Char} (hc : c ∈ path) :
    32 ≤ c.toNat ∧ c.toNat ≠ 34 ∧ c.toNat ≠ 92 ∧ c.toNat < 127 := by
  have hbytes : ∀ b ∈ asBytes path, needsQuote b = false := by
    intro b hb
    by_contra hquote
    exact h (any_eq_true.2 ⟨b, hb, by simpa using hquote⟩)
  by_cases hlow : c.toNat ≤ 127
  · have hmem : UInt8.ofNat c.toNat ∈ asBytes path := by
      refine mem_flatMap.2 ⟨c, hc, ?_⟩
      rw [Str.utf8EncodeChar_of_le hlow]
      exact mem_singleton_self _
    have hspec := ne_of_needsQuote (hbytes _ hmem)
    have hbyte : (UInt8.ofNat c.toNat).toNat = c.toNat := by
      rw [UInt8.toNat_ofNat']
      omega
    rwa [hbyte] at hspec
  · obtain ⟨b, hb⟩ := exists_mem_of_ne_nil (String.utf8EncodeChar c) (by
      rw [← length_pos_iff, String.length_utf8EncodeChar]
      exact c.utf8Size_pos)
    have hhigh := Str.high_of_mem_utf8EncodeChar (Nat.not_le.1 hlow) hb
    have hspec := ne_of_needsQuote (hbytes b (mem_flatMap.2 ⟨c, hc, hb⟩))
    omega

theorem eq_space_of_isWhitespace {path : Str} (h : ¬ IsQuoted path) {c : Char} (hc : c ∈ path)
    (hspace : isWhitespace c = true) : c = ' ' := by
  have hrange := char_of_not_isQuoted h hc
  have hnat : c.toNat = ' '.toNat := by
    simp only [isWhitespace, Bool.or_eq_true, Bool.and_eq_true, decide_eq_true_eq, beq_iff_eq]
      at hspace
    have hval : ' '.toNat = 32 := rfl
    omega
  exact Char.toNat_inj.1 hnat

theorem readDiffGitToken_of_space {c : Char} (hc : isWhitespace c = true) (s : Str) :
    readDiffGitToken (c :: s) = readDiffGitToken s := by
  rw [readDiffGitToken, readDiffGitToken, dropWhile_cons_of_pos hc]

theorem readDiffGitToken_of_bare {c : Char} (hc : isWhitespace c = false)
    (hquote : isQuote c = false) (s : Str) :
    readDiffGitToken (c :: s) = some (readBare (c :: s)) := by
  rw [readDiffGitToken, dropWhile_cons_of_neg (by simp [hc])]
  simp [hquote]

theorem readDiffGitToken_of_quote {c : Char} (hc : isWhitespace c = false)
    (hquote : isQuote c = true) (s : Str) :
    readDiffGitToken (c :: s) = some (unescapeCString (readQuoted c s).1, (readQuoted c s).2) := by
  rw [readDiffGitToken, dropWhile_cons_of_neg (by simp [hc])]
  simp [hquote]

/-- The letter of a side of the header. -/
def IsSide (side : Char) : Prop := side = 'a' ∨ side = 'b'

theorem IsSide.spec {side : Char} (h : IsSide side) :
    isWhitespace side = false ∧ isQuote side = false ∧ side ≠ '\\' ∧ side ≠ '/' := by
  rcases h with rfl | rfl <;> decide

variable {side : Char} {path : Str}

theorem readDiffGitToken_quotePath (hside : IsSide side) (h : IsQuoted path) (rest : Str) :
    readDiffGitToken (quotePath side path ++ rest) = some (side :: '/' :: mangled path, rest) := by
  obtain ⟨-, hquote, hslash, -⟩ := hside.spec
  have hread := readQuoted_flatMap (asBytes path) rest
  have hend : unescapeCString [] = [] := by
    rw [unescapeCString]
  have hunescape := unescapeCString_flatMap (asBytes path) []
  rw [append_nil, hend, append_nil] at hunescape
  rw [quotePath, if_pos h, cons_append, cons_append, cons_append, append_assoc,
    singleton_append, readDiffGitToken_of_quote (by decide) (by decide),
    readQuoted_cons (ne_of_isQuote (by decide) hquote) hslash,
    readQuoted_cons (by decide) (by decide), hread]
  dsimp only
  rw [unescapeCString_cons hslash, unescapeCString_cons (by decide), hunescape]
  rfl

/-- A bare path is read up to its first space. -/
theorem readDiffGitToken_bare (hside : IsSide side) (s : Str) :
    readDiffGitToken (side :: '/' :: s) =
      some (side :: '/' :: s.takeWhile fun c => !isWhitespace c,
        (s.dropWhile fun c => !isWhitespace c).drop 1) := by
  obtain ⟨hspace, hquote, -, -⟩ := hside.spec
  have hslash : isWhitespace '/' = false := by decide
  rw [readDiffGitToken_of_bare hspace hquote, readBare_eq]
  simp [hspace, hslash]

def IsToken (path : Str) : Prop := IsQuoted path ∨ ' ' ∉ path

theorem not_isWhitespace_of_isToken (h : IsToken path) (hbare : ¬ IsQuoted path) :
    ∀ c ∈ path, (!isWhitespace c) = true := by
  intro c hc
  rw [Bool.not_eq_true', Bool.eq_false_iff]
  intro hspace
  obtain rfl := eq_space_of_isWhitespace hbare hc hspace
  exact (h.resolve_left hbare) hc

theorem ascii_of_not_isQuoted (h : ¬ IsQuoted path) : ∀ c ∈ path, c.toNat < 128 := by
  intro c hc
  have hrange := char_of_not_isQuoted h hc
  omega

theorem readDiffGitToken_first (hside : IsSide side) (h : IsToken path) (rest : Str) :
    ∃ left, readDiffGitToken (quotePath side path ++ ' ' :: rest) =
        some (side :: '/' :: mangled path, left) ∧
      readDiffGitToken left = readDiffGitToken rest := by
  by_cases hquoted : IsQuoted path
  · exact ⟨_, readDiffGitToken_quotePath hside hquoted _,
      readDiffGitToken_of_space (by decide) rest⟩
  · have hkeep := not_isWhitespace_of_isToken h hquoted
    refine ⟨rest, ?_, rfl⟩
    rw [quotePath, if_neg hquoted, cons_append, cons_append, readDiffGitToken_bare hside,
      Str.takeWhile_append_cons hkeep (by decide), Str.dropWhile_append_cons hkeep (by decide),
      mangled_of_ascii (ascii_of_not_isQuoted hquoted)]
    rfl

theorem trimEnd_quotePath (hside : IsSide side) :
    Str.trimEnd (quotePath side path) =
      if IsQuoted path then quotePath side path else side :: '/' :: Str.trimEnd path := by
  obtain ⟨hspace, -⟩ := hside.spec
  rw [quotePath]
  split
  · have hend := Str.trimEnd_concat (c := '"') (by decide)
      ('"' :: side :: '/' :: (asBytes path).flatMap quoteByte)
    simpa using hend
  · have happend := Str.trimEnd_append [side, '/'] path
    have hpre : Str.trimEnd [side, '/'] = [side, '/'] := Str.trimEnd_concat (by decide) [side]
    rw [hpre] at happend
    refine happend.trans ?_
    split
    · next hnil => rw [hnil]
    · rfl

theorem readDiffGitToken_last (hside : IsSide side) (h : IsToken path) :
    ∃ left, readDiffGitToken (Str.trimEnd (quotePath side path)) =
      some (side :: '/' :: mangled path, left) := by
  rw [trimEnd_quotePath hside]
  split
  · next hquoted =>
    have hread := readDiffGitToken_quotePath hside hquoted []
    rw [append_nil] at hread
    exact ⟨[], hread⟩
  · next hquoted =>
    have hkeep := not_isWhitespace_of_isToken h hquoted
    have htrim : Str.trimEnd path = path := by
      rw [Str.trimEnd, rdropWhile_eq_self_iff]
      intro hne hspace
      have hlast := hkeep _ (getLast_mem hne)
      rw [hspace] at hlast
      cases hlast
    rw [htrim, readDiffGitToken_bare hside, takeWhile_eq_self_iff.2 hkeep,
      mangled_of_ascii (ascii_of_not_isQuoted hquoted)]
    exact ⟨_, rfl⟩

end SheriMl.GitApply
