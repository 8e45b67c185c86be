import Mathlib.Algebra.GroupWithZero.Nat
import Mathlib.Data.List.DropRight

/-!
# Strings as lists of characters

Rust's `str` operations on character lists, under their Rust names: trimming,
prefixes and suffixes, splitting, joining, ASCII case. A string literal is
coerced to its characters.
-/

/-- A Rust string, as its sequence of Unicode scalar values. -/
abbrev Str := List Char

namespace Str

instance : Coe String Str := ⟨String.toList⟩

instance : LawfulBEq Str := inferInstanceAs (LawfulBEq (List Char))

/-! ## Characters -/

/-- `char::is_whitespace`: the Unicode `White_Space` property. -/
def isWhitespace (c : Char) : Bool :=
  (0x9 ≤ c.toNat && c.toNat ≤ 0xD) || c.toNat == 0x20 || c.toNat == 0x85 || c.toNat == 0xA0 ||
    c.toNat == 0x1680 || (0x2000 ≤ c.toNat && c.toNat ≤ 0x200A) || c.toNat == 0x2028 ||
    c.toNat == 0x2029 || c.toNat == 0x202F || c.toNat == 0x205F || c.toNat == 0x3000

/-- `char::to_ascii_lowercase`. -/
def asciiLower (c : Char) : Char :=
  if 'A' ≤ c ∧ c ≤ 'Z' then Char.ofNat (c.toNat + 32) else c

/-- `str::len`: the number of bytes of the UTF-8 encoding. -/
def utf8Size (s : Str) : Nat := (s.map Char.utf8Size).sum

/-- `char::is_ascii_digit`. -/
def isAsciiDigit (c : Char) : Bool := '0' ≤ c && c ≤ '9'

/-! ## Slices -/

/-- `str::trim_start`. -/
def trimStart (s : Str) : Str := s.dropWhile isWhitespace

/-- `str::trim_end`. -/
def trimEnd (s : Str) : Str := s.rdropWhile isWhitespace

/-- `str::trim`. -/
def trim (s : Str) : Str := trimEnd (trimStart s)

/-- `str::trim_end_matches(c)`. -/
def trimEndMatches (c : Char) (s : Str) : Str := s.rdropWhile (· == c)

/-- `str::starts_with`. -/
def startsWith (s p : Str) : Bool := p.isPrefixOf s

/-- `str::ends_with`. -/
def endsWith (s p : Str) : Bool := p.isSuffixOf s

/-- `str::strip_prefix`. -/
def stripPrefix (s p : Str) : Option Str :=
  if p.isPrefixOf s then some (s.drop p.length) else none

/-- `str::strip_suffix`. -/
def stripSuffix (s p : Str) : Option Str :=
  if p.isSuffixOf s then some (s.take (s.length - p.length)) else none

/-- `str::split_once(c)`. -/
def splitOnce (c : Char) (s : Str) : Option (Str × Str) :=
  if c ∈ s then some (s.takeWhile (· != c), (s.dropWhile (· != c)).drop 1) else none

/-- `str::to_ascii_lowercase`. -/
def toAsciiLowercase (s : Str) : Str := s.map asciiLower

/-- `str::split('\n')` and `split(c)` in general: one piece more than there are separators. -/
def split (c : Char) (s : Str) : List Str := s.splitOn c

/-- `[String]::join`. -/
def join (sep : Str) (parts : List Str) : Str := sep.intercalate parts

/-- `str::lines`: split at newlines; a line ended by a newline loses one carriage
return before it, and there is no line after a final newline. -/
def lines (s : Str) : List Str :=
  let pieces := split '\n' s
  let last := pieces.getLast?.getD []
  (pieces.dropLast.map fun l => (stripSuffix l "\r").getD l) ++ if last.isEmpty then [] else [last]

/-! ## Laws -/

theorem stripPrefix_eq_some {s p r : Str} : stripPrefix s p = some r ↔ s = p ++ r := by
  unfold stripPrefix
  split
  · next h =>
    obtain ⟨t, rfl⟩ := List.isPrefixOf_iff_prefix.1 h
    simp [eq_comm]
  · next h =>
    simp only [reduceCtorEq, false_iff]
    rintro rfl
    exact h (List.isPrefixOf_iff_prefix.2 (List.prefix_append p r))

theorem stripSuffix_append (s p : Str) : stripSuffix (s ++ p) p = some s := by
  simp [stripSuffix]

theorem startsWith_iff {s p : Str} : startsWith s p = true ↔ ∃ r, s = p ++ r := by
  unfold startsWith
  rw [List.isPrefixOf_iff_prefix]
  exact ⟨fun ⟨r, h⟩ => ⟨r, h.symm⟩, fun ⟨r, h⟩ => ⟨r, h.symm⟩⟩

theorem endsWith_iff {s p : Str} : endsWith s p = true ↔ ∃ r, s = r ++ p := by
  unfold endsWith
  rw [List.isSuffixOf_iff_suffix]
  exact ⟨fun ⟨r, h⟩ => ⟨r, h.symm⟩, fun ⟨r, h⟩ => ⟨r, h.symm⟩⟩

def lowerLetters : Str := "abcdefghijklmnopqrstuvwxyz"

theorem asciiLower_cases (c : Char) : asciiLower c = c ∨ asciiLower c ∈ lowerLetters := by
  by_cases h : 'A' ≤ c ∧ c ≤ 'Z'
  · right
    have hall : ∀ n ∈ List.range' 65 26, asciiLower (Char.ofNat n) ∈ lowerLetters := by decide
    have hlow : 65 ≤ c.toNat := h.1
    have hhigh : c.toNat ≤ 90 := h.2
    have hc := hall c.toNat (by rw [List.mem_range'_1]; omega)
    rwa [Char.ofNat_toNat] at hc
  · exact .inl (if_neg h)

/-- Without capital letters. -/
def IsLower (s : Str) : Prop := ∀ c ∈ s, asciiLower c = c

instance (s : Str) : Decidable (IsLower s) := List.decidableBAll _ s

theorem asciiLower_idem (c : Char) : asciiLower (asciiLower c) = asciiLower c := by
  have hall : IsLower lowerLetters := by decide
  rcases asciiLower_cases c with h | h
  · rw [h, h]
  · exact hall _ h

theorem asciiLower_eq_dot {c : Char} : asciiLower c = '.' ↔ c = '.' := by
  constructor
  · intro h
    rcases asciiLower_cases c with hc | hc
    · exact hc.symm.trans h
    · rw [h] at hc
      exact absurd hc (by decide)
  · rintro rfl
    rfl

theorem IsLower.mono {s t : Str} (ht : IsLower t) (h : ∀ c ∈ s, c ∈ t) : IsLower s := by
  intro c hc
  exact ht c (h c hc)

theorem IsLower.append {s t : Str} (hs : IsLower s) (ht : IsLower t) : IsLower (s ++ t) := by
  intro c hc
  exact (List.mem_append.1 hc).elim (hs c) (ht c)

theorem isLower_toAsciiLowercase (s : Str) : IsLower (toAsciiLowercase s) := by
  intro c hc
  obtain ⟨d, -, rfl⟩ := List.mem_map.1 hc
  exact asciiLower_idem d

theorem IsLower.toAsciiLowercase_eq {s : Str} (hs : IsLower s) : toAsciiLowercase s = s := by
  induction s with
  | nil => rfl
  | cons c s ih =>
    have htail : IsLower s := hs.mono fun d hd => List.mem_cons_of_mem c hd
    rw [toAsciiLowercase, List.map_cons, hs c List.mem_cons_self]
    exact congrArg (c :: ·) (ih htail)

theorem mem_of_mem_trim {s : Str} {c : Char} (h : c ∈ trim s) : c ∈ s :=
  (List.dropWhile_suffix _).subset ((List.rdropWhile_prefix _ _).subset h)

/-- The pieces are free of the separator. -/
theorem notMem_of_mem_split {s piece : Str} {c : Char} (h : piece ∈ split c s) : c ∉ piece := by
  induction s generalizing piece with
  | nil =>
    rw [List.mem_singleton.1 h]
    simp
  | cons d s ih =>
    rw [split, List.splitOn_cons_eq_if_modifyHead] at h
    split at h
    next =>
      obtain rfl | hmem := List.mem_cons.1 h
      · simp
      · exact ih hmem
    next hne =>
      cases hpieces : s.splitOn c with
      | nil => exact absurd hpieces (List.splitOn_ne_nil c s)
      | cons first rest =>
        rw [hpieces, List.modifyHead_cons] at h
        have hmem {p : Str} (hp : p ∈ first :: rest) : c ∉ p := by
          rw [← hpieces] at hp
          exact ih hp
        obtain rfl | hrest := List.mem_cons.1 h
        · have hdc : c ≠ d := fun heq => hne (by simp [heq])
          simp [hdc, hmem List.mem_cons_self]
        · exact hmem (List.mem_cons_of_mem _ hrest)

example : lines "a\nb\r\n\nc\n" = ["a", "b", "", "c"].map String.toList := by decide

example : trim "  *** Begin Patch \n" = "*** Begin Patch".toList := by decide

end Str
