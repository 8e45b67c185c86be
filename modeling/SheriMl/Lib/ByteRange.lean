import Mathlib.Data.List.Infix
import SheriMl.Lib.Utf8

/-!
# Byte ranges of a text

Positions between characters, counted in UTF-8 bytes; the slice between two of them,
and the text with that slice replaced. A position or a slice away from the replaced
range is found again in the new text, where the change of length has moved it.
-/

namespace Str

open List

/-- `str[a..b]`, at boundaries. -/
def slice (s : Str) (a b : Nat) : Str := dropBytes a (takeBytes b s)

/-- `String::replace_range`, at boundaries. -/
def splice (s : Str) (a b : Nat) (t : Str) : Str := takeBytes a s ++ t ++ dropBytes b s

/-- A position between characters, or at an end. -/
def IsBoundary (s : Str) (n : Nat) : Prop := ∃ l r, s = l ++ r ∧ utf8Size l = n

/-- `str::is_char_boundary`. -/
def isCharBoundary (s : Str) (n : Nat) : Bool := utf8Size (takeBytes n s) == n

/-- `str::get` of a range. -/
def get? (s : Str) (a b : Nat) : Option Str :=
  if a ≤ b ∧ isCharBoundary s a ∧ isCharBoundary s b then some (slice s a b) else none

/-- `str::contains`: some slice is `t`. -/
def contains (s t : Str) : Bool := s.tails.any fun rest => t.isPrefixOf rest

variable {s t l m r : Str} {a b n x y : Nat}

theorem takeBytes_isPrefix (n : Nat) (s : Str) : takeBytes n s <+: s := by
  induction s generalizing n with
  | nil => exact nil_prefix
  | cons c s ih =>
    unfold takeBytes
    split
    · exact cons_prefix_cons.2 ⟨rfl, ih _⟩
    · exact nil_prefix

theorem takeBytes_append_dropBytes (n : Nat) (s : Str) : takeBytes n s ++ dropBytes n s = s := by
  obtain ⟨rest, hrest⟩ := takeBytes_isPrefix n s
  have hdrop := congrArg (List.drop (takeBytes n s).length) hrest
  rw [drop_left] at hdrop
  rw [dropBytes, ← hdrop, hrest]

theorem isCharBoundary_iff : isCharBoundary s n = true ↔ IsBoundary s n := by
  rw [isCharBoundary, beq_iff_eq]
  constructor
  · intro h
    exact ⟨takeBytes n s, dropBytes n s, (takeBytes_append_dropBytes n s).symm, h⟩
  · rintro ⟨l, r, rfl, rfl⟩
    rw [takeBytes_boundary]

@[simp] theorem isBoundary_zero (s : Str) : IsBoundary s 0 := ⟨[], s, rfl, rfl⟩

@[simp] theorem isBoundary_utf8Size (s : Str) : IsBoundary s (utf8Size s) :=
  ⟨s, [], (append_nil s).symm, rfl⟩

theorem isBoundary_append (l r : Str) : IsBoundary (l ++ r) (utf8Size l) := ⟨l, r, rfl, rfl⟩

namespace IsBoundary

theorem le (h : IsBoundary s n) : n ≤ utf8Size s := by
  obtain ⟨l, r, rfl, rfl⟩ := h
  rw [utf8Size_append]
  exact Nat.le_add_right _ _

/-- Two boundaries cut a text in three. -/
theorem exists_append (ha : IsBoundary s a) (hb : IsBoundary s b) (hab : a ≤ b) :
    ∃ l m r, s = l ++ m ++ r ∧ utf8Size l = a ∧ utf8Size (l ++ m) = b := by
  obtain ⟨l, r, rfl, rfl⟩ := ha
  obtain ⟨l', r', heq, rfl⟩ := hb
  obtain ⟨mid, rfl, -⟩ | ⟨mid, rfl, -⟩ := append_eq_append_iff.1 heq
  · exact ⟨l, mid, r', heq, rfl, rfl⟩
  · have hmid : mid = [] := by
      by_contra hne
      have hpos := utf8Size_pos hne
      rw [utf8Size_append] at hab
      omega
    subst hmid
    exact ⟨l', [], r', by simpa using heq, by simp, by simp⟩

end IsBoundary

@[simp] theorem slice_append : slice (l ++ m ++ r) (utf8Size l) (utf8Size (l ++ m)) = m := by
  rw [slice, takeBytes_boundary, dropBytes_boundary]

@[simp] theorem splice_append :
    splice (l ++ m ++ r) (utf8Size l) (utf8Size (l ++ m)) t = l ++ t ++ r := by
  rw [splice, dropBytes_boundary, append_assoc l m r, takeBytes_boundary]

theorem get?_eq_slice (ha : IsBoundary s a) (hb : IsBoundary s b) (hab : a ≤ b) :
    get? s a b = some (slice s a b) :=
  if_pos ⟨hab, isCharBoundary_iff.2 ha, isCharBoundary_iff.2 hb⟩

/-- A slice that is found at the same distance from the start of the text. -/
theorem slice_eq_of_append (hx : IsBoundary l x) (hy : IsBoundary l y) (hxy : x ≤ y) (r : Str) :
    slice (l ++ r) x y = slice l x y := by
  obtain ⟨p, q, z, rfl, rfl, rfl⟩ := hx.exists_append hy hxy
  rw [slice_append, append_assoc, slice_append]

/-- A slice that is found at the same distance from the end of the text. -/
theorem slice_append_right (hx : IsBoundary r x) (hy : IsBoundary r y) (hxy : x ≤ y) (l : Str) :
    slice (l ++ r) (utf8Size l + x) (utf8Size l + y) = slice r x y := by
  obtain ⟨p, q, z, rfl, rfl, rfl⟩ := hx.exists_append hy hxy
  have h := slice_append (l := l ++ p) (m := q) (r := z)
  rw [slice_append, ← utf8Size_append, ← utf8Size_append]
  simpa only [append_assoc] using h

theorem IsBoundary.of_append_left (h : IsBoundary (l ++ r) x) (hx : x ≤ utf8Size l) :
    IsBoundary l x := by
  obtain ⟨p, q, z, heq, rfl, hl⟩ := h.exists_append (isBoundary_append l r) hx
  have hpq : p ++ q = l := by
    have htake := congrArg (takeBytes (utf8Size l)) heq
    rw [takeBytes_boundary, ← hl, takeBytes_boundary] at htake
    exact htake.symm
  exact ⟨p, q, hpq.symm, rfl⟩

theorem IsBoundary.of_append_right (h : IsBoundary (l ++ r) x) (hx : utf8Size l ≤ x) :
    IsBoundary r (x - utf8Size l) := by
  obtain ⟨p, q, z, heq, hp, rfl⟩ := (isBoundary_append l r).exists_append h hx
  have hr : q ++ z = r := by
    have hdrop := congrArg (dropBytes (utf8Size l)) heq
    rw [dropBytes_boundary, ← hp, append_assoc, dropBytes_boundary] at hdrop
    exact hdrop.symm
  refine ⟨q, z, hr.symm, ?_⟩
  rw [utf8Size_append, hp]
  omega

theorem IsBoundary.append_right (h : IsBoundary l x) (r : Str) : IsBoundary (l ++ r) x := by
  obtain ⟨p, q, rfl, rfl⟩ := h
  exact ⟨p, q ++ r, append_assoc _ _ _, rfl⟩

theorem IsBoundary.append_left (h : IsBoundary r x) (l : Str) :
    IsBoundary (l ++ r) (utf8Size l + x) := by
  obtain ⟨p, q, rfl, rfl⟩ := h
  exact ⟨l ++ p, q, (append_assoc _ _ _).symm, utf8Size_append⟩

theorem contains_iff {s t : Str} : contains s t = true ↔ t <:+: s := by
  simp only [contains, any_eq_true, mem_tails, isPrefixOf_iff_prefix,
    infix_iff_prefix_suffix]
  exact ⟨fun ⟨rest, hsuffix, hpre⟩ => ⟨rest, hpre, hsuffix⟩,
    fun ⟨rest, hpre, hsuffix⟩ => ⟨rest, hsuffix, hpre⟩⟩

/-- A range of the left part. -/
theorem get?_append_of_le {l r : Str} {a b : Nat} (h : b ≤ utf8Size l) :
    get? (l ++ r) a b = get? l a b := by
  have hiff : ∀ {n}, n ≤ b → (isCharBoundary (l ++ r) n = true ↔ isCharBoundary l n = true) := by
    intro n hn
    rw [isCharBoundary_iff, isCharBoundary_iff]
    exact ⟨fun hb => hb.of_append_left (hn.trans h), fun hb => hb.append_right r⟩
  unfold get?
  by_cases hcond : a ≤ b ∧ isCharBoundary l a ∧ isCharBoundary l b
  · obtain ⟨hab, ha, hb⟩ := hcond
    rw [if_pos ⟨hab, (hiff hab).2 ha, (hiff (Nat.le_refl b)).2 hb⟩, if_pos ⟨hab, ha, hb⟩,
      slice_eq_of_append (isCharBoundary_iff.1 ha) (isCharBoundary_iff.1 hb) hab]
  · rw [if_neg hcond, if_neg]
    rintro ⟨hab, ha, hb⟩
    exact hcond ⟨hab, (hiff hab).1 ha, (hiff (Nat.le_refl b)).1 hb⟩

/-! ## A replaced range -/

section Splice

variable (ha : IsBoundary s a) (hb : IsBoundary s b) (hab : a ≤ b)

include ha hb hab

/-- Positions before the range are kept. -/
theorem isBoundary_splice_of_le (hx : IsBoundary s x) (hxa : x ≤ a) :
    IsBoundary (splice s a b t) x := by
  obtain ⟨l, m, r, rfl, rfl, rfl⟩ := ha.exists_append hb hab
  rw [append_assoc] at hx
  rw [splice_append, append_assoc]
  exact (hx.of_append_left hxa).append_right _

/-- Positions after the range move by the change of length. -/
theorem isBoundary_splice_of_ge (hx : IsBoundary s x) (hbx : b ≤ x) :
    IsBoundary (splice s a b t) (x + utf8Size t - (b - a)) := by
  obtain ⟨l, m, r, rfl, rfl, rfl⟩ := ha.exists_append hb hab
  have h := (hx.of_append_right hbx).append_left (l ++ t)
  rw [splice_append]
  convert h using 1
  simp only [utf8Size_append] at hbx ⊢
  omega

/-- The end of what stands for the range. -/
theorem isBoundary_splice_end : IsBoundary (splice s a b t) (a + utf8Size t) := by
  obtain ⟨l, m, r, rfl, rfl, rfl⟩ := ha.exists_append hb hab
  rw [splice_append, ← utf8Size_append]
  exact isBoundary_append _ r

theorem slice_splice : slice (splice s a b t) a (a + utf8Size t) = t := by
  obtain ⟨l, m, r, rfl, rfl, rfl⟩ := ha.exists_append hb hab
  rw [splice_append, ← utf8Size_append, slice_append]

theorem slice_splice_of_le (hx : IsBoundary s x) (hy : IsBoundary s y) (hxy : x ≤ y)
    (hya : y ≤ a) : slice (splice s a b t) x y = slice s x y := by
  obtain ⟨l, m, r, rfl, rfl, rfl⟩ := ha.exists_append hb hab
  rw [append_assoc] at hx hy
  have hxl := hx.of_append_left (hxy.trans hya)
  have hyl := hy.of_append_left hya
  rw [splice_append, append_assoc, append_assoc, slice_eq_of_append hxl hyl hxy,
    slice_eq_of_append hxl hyl hxy]

theorem slice_splice_of_ge (hx : IsBoundary s x) (hy : IsBoundary s y) (hxy : x ≤ y)
    (hbx : b ≤ x) :
    slice (splice s a b t) (x + utf8Size t - (b - a)) (y + utf8Size t - (b - a)) =
      slice s x y := by
  obtain ⟨l, m, r, rfl, rfl, rfl⟩ := ha.exists_append hb hab
  have hxr := hx.of_append_right hbx
  have hyr := hy.of_append_right (hbx.trans hxy)
  have hnew := slice_append_right hxr hyr (by omega) (l ++ t)
  have hold := slice_append_right hxr hyr (by omega) (l ++ m)
  have hnewx : utf8Size (l ++ t) + (x - utf8Size (l ++ m)) =
      x + utf8Size t - (utf8Size (l ++ m) - utf8Size l) := by
    simp only [utf8Size_append] at hbx ⊢
    omega
  have hnewy : utf8Size (l ++ t) + (y - utf8Size (l ++ m)) =
      y + utf8Size t - (utf8Size (l ++ m) - utf8Size l) := by
    simp only [utf8Size_append] at hbx ⊢
    omega
  rw [splice_append, ← hnewx, ← hnewy, hnew, ← hold]
  congr 1 <;> omega

end Splice

end Str
