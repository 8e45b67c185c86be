import SheriMl.Lib.Str

/-!
# Texts by bytes

How much of a text fits in a number of UTF-8 bytes, from either end, and how a text
is cut in three where both ends are to fit and the middle is to go.
-/

namespace Str

open List

/-- The longest beginning of at most `n` bytes. -/
def takeBytes : Nat → Str → Str
  | _, [] => []
  | n, c :: s => if c.utf8Size ≤ n then c :: takeBytes (n - c.utf8Size) s else []

/-- The longest end of at most `n` bytes. -/
def takeBytesEnd (n : Nat) (s : Str) : Str := (takeBytes n s.reverse).reverse

/-- The rest after the longest beginning of at most `n` bytes. -/
def dropBytes (n : Nat) (s : Str) : Str := s.drop (takeBytes n s).length

variable {s t p left mid right : Str} {c : Char} {a b n : Nat}

@[simp] theorem utf8Size_nil : utf8Size [] = 0 := rfl

@[simp] theorem utf8Size_cons : utf8Size (c :: s) = c.utf8Size + utf8Size s := rfl

@[simp] theorem utf8Size_append : utf8Size (s ++ t) = utf8Size s + utf8Size t := by
  simp [utf8Size]

@[simp] theorem utf8Size_reverse : utf8Size s.reverse = utf8Size s := by
  simp [utf8Size]

theorem utf8Size_pos (h : s ≠ []) : 0 < utf8Size s := by
  cases s with
  | nil => exact absurd rfl h
  | cons c s =>
    have hc := c.utf8Size_pos
    rw [utf8Size_cons]
    omega

/-- Characters of one byte. -/
theorem utf8Size_eq_length (h : ∀ c ∈ s, c.utf8Size = 1) : utf8Size s = s.length := by
  induction s with
  | nil => rfl
  | cons c s ih =>
    have hs := ih fun d hd => h d (mem_cons_of_mem c hd)
    rw [utf8Size_cons, h c mem_cons_self, hs, length_cons]
    omega

theorem takeBytes_eq_take (h : ∀ c ∈ s, c.utf8Size = 1) : takeBytes n s = s.take n := by
  induction s generalizing n with
  | nil => simp [takeBytes]
  | cons c s ih =>
    have hs := ih (n := n - 1) fun d hd => h d (mem_cons_of_mem c hd)
    rw [takeBytes, h c mem_cons_self]
    cases n with
    | zero => rfl
    | succ n =>
      rw [Nat.add_sub_cancel] at hs
      rw [if_pos (Nat.le_add_left 1 n), Nat.add_sub_cancel, hs, take_succ_cons]

theorem utf8Size_takeBytes_le (n : Nat) (s : Str) : utf8Size (takeBytes n s) ≤ n := by
  induction s generalizing n with
  | nil => exact Nat.zero_le n
  | cons c s ih =>
    unfold takeBytes
    split
    · have hs := ih (n - c.utf8Size)
      rw [utf8Size_cons]
      omega
    · exact Nat.zero_le n

theorem utf8Size_takeBytesEnd_le (n : Nat) (s : Str) : utf8Size (takeBytesEnd n s) ≤ n := by
  rw [takeBytesEnd, utf8Size_reverse]
  exact utf8Size_takeBytes_le n s.reverse

theorem takeBytes_append (h : utf8Size p ≤ n) :
    takeBytes n (p ++ s) = p ++ takeBytes (n - utf8Size p) s := by
  induction p generalizing n with
  | nil => rfl
  | cons c p ih =>
    rw [utf8Size_cons] at h
    have hp := ih (n := n - c.utf8Size) (by omega)
    rw [cons_append, takeBytes, if_pos (by omega), hp, utf8Size_cons, Nat.sub_sub,
      cons_append]

/-- No longer beginning fits. -/
theorem takeBytes_longest (n : Nat) (s : Str) : takeBytes n s <+: s ∧
    ∀ p, p <+: s → utf8Size p ≤ n → p <+: takeBytes n s := by
  constructor
  · induction s generalizing n with
    | nil => exact prefix_refl _
    | cons c s ih =>
      unfold takeBytes
      split
      · exact cons_prefix_cons.2 ⟨rfl, ih _⟩
      · exact nil_prefix
  · rintro p ⟨rest, rfl⟩ h
    rw [takeBytes_append h]
    exact prefix_append _ _

theorem takeBytesEnd_longest (n : Nat) (s : Str) : takeBytesEnd n s <:+ s ∧
    ∀ q, q <:+ s → utf8Size q ≤ n → q <:+ takeBytesEnd n s := by
  obtain ⟨hbegin, hlongest⟩ := takeBytes_longest n s.reverse
  constructor
  · have hsuffix := reverse_suffix.2 hbegin
    rwa [reverse_reverse] at hsuffix
  · intro q hq h
    have hq' := hlongest q.reverse (List.reverse_prefix.2 hq) (by rwa [utf8Size_reverse])
    have hsuffix := reverse_suffix.2 hq'
    rwa [reverse_reverse] at hsuffix

/-- What is taken, cut where the next character does not fit. -/
theorem takeBytes_append_cons (h : utf8Size p ≤ n) (hc : n < utf8Size p + c.utf8Size) :
    takeBytes n (p ++ c :: s) = p := by
  rw [takeBytes_append h, takeBytes, if_neg (by omega), append_nil]

/-- At a boundary between characters, the slice up to it. -/
theorem takeBytes_boundary (p s : Str) : takeBytes (utf8Size p) (p ++ s) = p := by
  rw [takeBytes_append (Nat.le_refl _), Nat.sub_self]
  cases s with
  | nil => rw [takeBytes, append_nil]
  | cons c s =>
    have hc := c.utf8Size_pos
    rw [takeBytes, if_neg (by omega), append_nil]

theorem dropBytes_boundary (p s : Str) : dropBytes (utf8Size p) (p ++ s) = s := by
  rw [dropBytes, takeBytes_boundary, drop_left]

/-- A text that does not fit is cut before a character that does not fit. -/
theorem exists_takeBytes (h : n < utf8Size s) : ∃ c rest, s = takeBytes n s ++ c :: rest ∧
    n < utf8Size (takeBytes n s) + c.utf8Size := by
  induction s generalizing n with
  | nil => exact absurd h (Nat.not_lt_zero n)
  | cons d s ih =>
    rw [utf8Size_cons] at h
    unfold takeBytes
    split
    next hd =>
      obtain ⟨c, rest, hs, hc⟩ := ih (n := n - d.utf8Size) (by omega)
      refine ⟨c, rest, congrArg (d :: ·) hs, ?_⟩
      rw [utf8Size_cons]
      omega
    next hd => exact ⟨d, s, rfl, by rw [utf8Size_nil]; omega⟩

/-- Of a text that does not fit, at most three bytes of room are left. -/
theorem le_utf8Size_takeBytes (h : n < utf8Size s) : n ≤ utf8Size (takeBytes n s) + 3 := by
  obtain ⟨c, rest, -, hc⟩ := exists_takeBytes h
  have hfour := c.utf8Size_le_four
  omega

theorem le_utf8Size_takeBytesEnd (h : n < utf8Size s) :
    n ≤ utf8Size (takeBytesEnd n s) + 3 := by
  rw [takeBytesEnd, utf8Size_reverse]
  exact le_utf8Size_takeBytes (by rwa [utf8Size_reverse])

/-- A text cut at the ends that fit: neither end can take a character more of the middle. -/
structure Cut (a b : Nat) (left mid right : Str) : Prop where
  left_le : utf8Size left ≤ a
  right_le : utf8Size right ≤ b
  next : ∃ c rest, mid = c :: rest ∧ a < utf8Size left + c.utf8Size
  prev : ∃ c rest, mid = rest ++ [c] ∧ b < utf8Size right + c.utf8Size

/-- A text parted at the ends that fit: the rest begins, and what is between the ends ends, with
a character that does not. -/
structure Parts (a b : Nat) (left mid right : Str) : Prop where
  left_le : utf8Size left ≤ a
  right_le : utf8Size right ≤ b
  next : ∀ c rest, mid ++ right = c :: rest → a < utf8Size left + c.utf8Size
  prev : ∀ c rest, mid = rest ++ [c] → b < utf8Size right + c.utf8Size

theorem Cut.parts (h : Cut a b left mid right) : Parts a b left mid right := by
  refine ⟨h.left_le, h.right_le, fun c rest hc => ?_, fun c rest hc => ?_⟩
  · obtain ⟨d, rest', rfl, hd⟩ := h.next
    obtain ⟨rfl, -⟩ := List.cons.inj hc
    exact hd
  · obtain ⟨d, rest', rfl, hd⟩ := h.prev
    obtain ⟨-, hdc⟩ := append_inj' hc rfl
    rwa [← (List.cons.inj hdc).1]

/-- Every text is parted, the beginning first. -/
theorem exists_parts (a b : Nat) (s : Str) :
    ∃ left mid right, s = left ++ mid ++ right ∧ Parts a b left mid right := by
  obtain ⟨rest, hs⟩ := (takeBytes_longest a s).1
  obtain ⟨mid, hrest⟩ := (takeBytesEnd_longest b rest).1
  refine ⟨Str.takeBytes a s, mid, Str.takeBytesEnd b rest, ?_, utf8Size_takeBytes_le a s,
    utf8Size_takeBytesEnd_le b rest, fun c t hc => ?_, fun c t hc => ?_⟩
  · rw [append_assoc, hrest, hs]
  · rw [hrest] at hc
    by_contra hfits
    -- the beginning would not be the longest one
    have hlonger : Str.takeBytes a s ++ [c] <+: Str.takeBytes a s := by
      apply (takeBytes_longest a s).2
      · refine ⟨t, ?_⟩
        rw [append_assoc, singleton_append, ← hc, hs]
      · rw [utf8Size_append, utf8Size_cons, utf8Size_nil]
        omega
    have hlength := hlonger.length_le
    rw [length_append, length_singleton] at hlength
    omega
  · by_contra hfits
    have hlonger : [c] ++ Str.takeBytesEnd b rest <:+ Str.takeBytesEnd b rest := by
      apply (takeBytesEnd_longest b rest).2
      · refine ⟨t, ?_⟩
        rw [← append_assoc, ← hc, hrest]
      · rw [utf8Size_append, utf8Size_cons, utf8Size_nil]
        omega
    have hlength := hlonger.length_le
    rw [length_append, length_singleton] at hlength
    omega

theorem Parts.longest_left (h : Parts a b left mid right) {p : Str}
    (hp : p <+: left ++ mid ++ right) (hsize : utf8Size p ≤ a) : p <+: left := by
  rw [append_assoc] at hp
  rcases prefix_or_prefix_of_prefix hp (prefix_append left _) with hp' | ⟨t, rfl⟩
  · exact hp'
  · cases t with
    | nil => exact ⟨[], by rw [append_nil, append_nil]⟩
    | cons c t =>
      obtain ⟨rest, hrest⟩ := (prefix_append_right_inj left).1 hp
      have hc := h.next c (t ++ rest) hrest.symm
      rw [utf8Size_append, utf8Size_cons] at hsize
      omega

theorem Parts.longest_right (h : Parts a b left mid right) {q : Str}
    (hq : q <:+ mid ++ right) (hsize : utf8Size q ≤ b) : q <:+ right := by
  rcases suffix_or_suffix_of_suffix hq (suffix_append mid right) with hq' | ⟨t, rfl⟩
  · exact hq'
  · rcases eq_nil_or_concat t with rfl | ⟨init, c, rfl⟩
    · exact suffix_refl _
    · obtain ⟨rest, hrest⟩ := hq
      rw [← append_assoc] at hrest
      replace hrest := append_cancel_right hrest
      have hc := h.prev c (rest ++ init) (by rw [← hrest, concat_eq_append, append_assoc])
      rw [concat_eq_append, utf8Size_append, utf8Size_append, utf8Size_cons] at hsize
      omega

/-- A text longer than both ends together is cut at them. -/
theorem exists_cut (h : a + b < utf8Size s) : ∃ mid,
    s = takeBytes a s ++ mid ++ takeBytesEnd b s ∧
      Cut a b (takeBytes a s) mid (takeBytesEnd b s) := by
  have hleft := utf8Size_takeBytes_le a s
  have hright := utf8Size_takeBytesEnd_le b s
  obtain ⟨c, rest, hs, hc⟩ := exists_takeBytes (n := a) (s := s) (by omega)
  obtain ⟨d, tser, hrev, hd⟩ := exists_takeBytes (n := b) (s := s.reverse)
    (by rw [utf8Size_reverse]; omega)
  have hs' : s = tser.reverse ++ d :: takeBytesEnd b s := by
    have hreverse := congrArg List.reverse hrev
    simpa only [reverse_reverse, reverse_append, reverse_cons, append_assoc,
      cons_append, nil_append, takeBytesEnd] using hreverse
  have hd' : b < utf8Size (takeBytesEnd b s) + d.utf8Size := by
    rw [takeBytesEnd, utf8Size_reverse]
    exact hd
  have hboth : takeBytes a s ++ c :: rest = (tser.reverse ++ [d]) ++ takeBytesEnd b s := by
    rw [← hs, append_assoc]
    exact hs'
  obtain ⟨mid, hmid, hrest⟩ | ⟨mid, hmid, hrest⟩ := append_eq_append_iff.1 hboth
  · refine ⟨mid, ?_, ⟨hleft, hright, ?_, ?_⟩⟩
    · rw [← hmid, append_assoc]
      exact hs'
    · cases mid with
      | nil =>
        -- otherwise the ends would cover the text
        have hsize := congrArg utf8Size hs
        rw [utf8Size_append, hrest, nil_append] at hsize
        omega
      | cons c' mid =>
        obtain ⟨rfl, -⟩ := List.cons.inj hrest
        exact ⟨c, mid, rfl, hc⟩
    · rcases eq_nil_or_concat mid with rfl | ⟨init, last, rfl⟩
      · have hsize := congrArg utf8Size hs
        rw [utf8Size_append, hrest, nil_append] at hsize
        omega
      · have hlast := congrArg List.getLast? hmid
        rw [concat_eq_append, ← append_assoc, List.getLast?_concat,
          List.getLast?_concat] at hlast
        obtain rfl := Option.some.inj hlast
        exact ⟨d, init, concat_eq_append, hd'⟩
  · have hsize := congrArg utf8Size hs
    have hsizeLeft := congrArg utf8Size hmid
    have hsizeRight := congrArg utf8Size hrest
    simp only [utf8Size_append, utf8Size_cons, utf8Size_nil] at hsize hsizeLeft hsizeRight
    omega

end Str
