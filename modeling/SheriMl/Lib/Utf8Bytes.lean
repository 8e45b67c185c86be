import SheriMl.Lib.Lines
import SheriMl.Lib.Pieces
import SheriMl.Lib.Utf8

/-!
# Texts as UTF-8 bytes

The bytes of a text, and the text of bytes that are valid. Only the characters under 128 have
bytes under 128, so that lines of a text are lines of its bytes.
-/

namespace Str

open List

/-- `str::as_bytes` -/
def asBytes (s : Str) : List UInt8 := s.flatMap String.utf8EncodeChar

/-- `String::from_utf8` -/
def fromUtf8 (bytes : List UInt8) : Option Str := bytes.toByteArray.utf8Decode?.map Array.toList

/-- A line as `BufRead::lines` gives it. -/
def readLine (line : List UInt8) : Option Str :=
  (fromUtf8 line).map fun l =>
    match stripSuffix l "\n" with
    | some l => chomp l
    | none => l

variable {s t : Str} {c : Char} {b : UInt8} {bytes : List UInt8}

@[simp] theorem asBytes_nil : asBytes [] = [] := rfl

@[simp] theorem asBytes_cons (c : Char) (s : Str) :
    asBytes (c :: s) = String.utf8EncodeChar c ++ asBytes s := flatMap_cons

@[simp] theorem asBytes_append (s t : Str) : asBytes (s ++ t) = asBytes s ++ asBytes t :=
  flatMap_append

theorem length_asBytes (s : Str) : (asBytes s).length = utf8Size s := by
  simp [asBytes, utf8Size, length_flatMap]

@[simp] theorem fromUtf8_asBytes (s : Str) : fromUtf8 (asBytes s) = some s := by
  have hdecode : s.utf8Encode.utf8Decode? = some s.toArray := List.utf8Decode?_utf8Encode
  rw [List.utf8Encode] at hdecode
  rw [fromUtf8, asBytes, hdecode]
  rfl

theorem asBytes_of_fromUtf8 (h : fromUtf8 bytes = some s) : asBytes s = bytes := by
  obtain ⟨chars, hchars, rfl⟩ := Option.map_eq_some_iff.1 h
  have hsome : bytes.toByteArray.utf8Decode?.isSome = true := by
    rw [hchars]
    rfl
  have hencode := @ByteArray.utf8Encode_get_utf8Decode? bytes.toByteArray hsome
  have hget : bytes.toByteArray.utf8Decode?.get hsome = chars := by
    simp [hchars]
  rw [hget, List.utf8Encode] at hencode
  have hbytes := congrArg (fun b => b.data.toList) hencode
  rw [asBytes]
  simpa using hbytes

theorem fromUtf8_encodeChar_append (c : Char) (bytes : List UInt8) :
    fromUtf8 (String.utf8EncodeChar c ++ bytes) = (fromUtf8 bytes).map (c :: ·) := by
  have hdecode := @ByteArray.utf8Decode?_utf8Encode_singleton_append bytes.toByteArray c
  have hencode : [c].utf8Encode = (String.utf8EncodeChar c).toByteArray := by
    rw [List.utf8Encode, flatMap_singleton]
  rw [hencode, ← toByteArray_append] at hdecode
  rw [fromUtf8, hdecode, fromUtf8, Option.map_map, Option.map_map]
  refine congrArg (Option.map · _) (funext fun chars => ?_)
  simp

/-- Behind a text, bytes are read by themselves. -/
theorem fromUtf8_asBytes_append (s : Str) (bytes : List UInt8) :
    fromUtf8 (asBytes s ++ bytes) = (fromUtf8 bytes).map (s ++ ·) := by
  induction s with
  | nil => simp
  | cons c s ih =>
    rw [asBytes_cons, append_assoc, fromUtf8_encodeChar_append, ih, Option.map_map]
    rfl

/-- `str::from_utf8(..).is_ok()` -/
def isUtf8 (bytes : List UInt8) : Bool := (fromUtf8 bytes).isSome

@[simp] theorem isUtf8_nil : isUtf8 [] = true := congrArg Option.isSome (fromUtf8_asBytes [])

@[simp] theorem isUtf8_asBytes (s : Str) : isUtf8 (asBytes s) = true :=
  congrArg Option.isSome (fromUtf8_asBytes s)

theorem exists_of_isUtf8 (h : isUtf8 bytes = true) : ∃ s, bytes = asBytes s := by
  obtain ⟨s, hs⟩ := Option.isSome_iff_exists.1 h
  exact ⟨s, (asBytes_of_fromUtf8 hs).symm⟩

theorem isUtf8_append {bytes' : List UInt8} (h : isUtf8 bytes = true) :
    isUtf8 (bytes ++ bytes') = isUtf8 bytes' := by
  obtain ⟨s, rfl⟩ := exists_of_isUtf8 h
  rw [isUtf8, fromUtf8_asBytes_append, Option.isSome_map, isUtf8]

theorem isUtf8_flatten {pieces : List (List UInt8)} (h : ∀ piece ∈ pieces, isUtf8 piece = true) :
    isUtf8 pieces.flatten = true := by
  induction pieces with
  | nil => exact isUtf8_nil
  | cons piece pieces ih =>
    obtain ⟨hpiece, hpieces⟩ := forall_mem_cons.1 h
    rw [flatten_cons, isUtf8_append hpiece]
    exact ih hpieces

/-- The bytes of a text that fit, up to three of them, end between characters. -/
theorem exists_isUtf8_take {n : Nat} (hn : 4 ≤ n) (hs : s ≠ []) :
    ∃ k, 0 < k ∧ k ≤ min (asBytes s).length n ∧ min (asBytes s).length n ≤ k + 3 ∧
      isUtf8 ((asBytes s).take k) = true := by
  have hpos := utf8Size_pos hs
  rw [length_asBytes]
  rcases Nat.lt_or_ge n (utf8Size s) with hlong | hshort
  · have hnear := le_utf8Size_takeBytes hlong
    have hfits := utf8Size_takeBytes_le n s
    obtain ⟨t, ht⟩ := (takeBytes_longest n s).1
    have htake : (asBytes s).take (utf8Size (takeBytes n s)) = asBytes (takeBytes n s) := by
      conv => lhs; arg 2; rw [← ht]
      rw [asBytes_append, ← length_asBytes, take_left]
    refine ⟨utf8Size (takeBytes n s), by omega, by omega, by omega, ?_⟩
    rw [htake]
    exact isUtf8_asBytes _
  · refine ⟨utf8Size s, hpos, by omega, by omega, ?_⟩
    rw [← length_asBytes, take_length]
    exact isUtf8_asBytes s

theorem readLine_asBytes {l : Str} (h : endsWith l "\r" = false) :
    readLine (asBytes (l ++ ['\n'])) = some l := by
  have hstrip : stripSuffix (l ++ ['\n']) "\n" = some l := stripSuffix_append l "\n"
  rw [readLine, fromUtf8_asBytes, Option.map_some]
  simp only [hstrip, chomp_of_not_endsWith h]

/-! ## Characters of one byte -/

theorem utf8EncodeChar_of_le (h : c.toNat ≤ 127) :
    String.utf8EncodeChar c = [UInt8.ofNat c.toNat] := if_pos h

theorem high_of_mem_utf8EncodeChar (hc : 127 < c.toNat) (h : b ∈ String.utf8EncodeChar c) :
    128 ≤ b.toNat := by
  have hnot : ¬c.val.toNat ≤ 127 := Nat.not_le.2 hc
  simp only [String.utf8EncodeChar, if_neg hnot] at h
  split at h
  · simp only [mem_cons, not_mem_nil, or_false] at h
    rcases h with rfl | rfl <;> rw [UInt8.toNat_ofNat'] <;> omega
  · split at h
    · simp only [mem_cons, not_mem_nil, or_false] at h
      rcases h with rfl | rfl | rfl <;> rw [UInt8.toNat_ofNat'] <;> omega
    · simp only [mem_cons, not_mem_nil, or_false] at h
      rcases h with rfl | rfl | rfl | rfl <;> rw [UInt8.toNat_ofNat'] <;> omega

/-- A character under 128 is in a text if its byte is among the text's. -/
theorem mem_of_mem_asBytes (hc : c.toNat ≤ 127) (h : UInt8.ofNat c.toNat ∈ asBytes s) : c ∈ s := by
  obtain ⟨d, hd, hmem⟩ := mem_flatMap.1 h
  have hbyte : (UInt8.ofNat c.toNat).toNat = c.toNat := by
    rw [UInt8.toNat_ofNat']
    omega
  by_cases hlow : d.toNat ≤ 127
  · rw [utf8EncodeChar_of_le hlow, mem_singleton] at hmem
    have heq := congrArg UInt8.toNat hmem
    rw [hbyte, UInt8.toNat_ofNat', Nat.mod_eq_of_lt (by omega)] at heq
    rwa [Char.toNat_inj.1 heq]
  · have hhigh := high_of_mem_utf8EncodeChar (Nat.not_le.1 hlow) hmem
    rw [hbyte] at hhigh
    omega

theorem notMem_asBytes (h : '\n' ∉ s) : (10 : UInt8) ∉ asBytes s :=
  fun hmem => h (mem_of_mem_asBytes (c := '\n') (by decide) hmem)

end Str
