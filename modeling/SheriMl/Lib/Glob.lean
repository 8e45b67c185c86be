import Mathlib.Data.List.Infix
import SheriMl.Lib.Str

/-!
# Glob engines

A library that matches texts against glob patterns without regard to ASCII case, as
a parameter: which patterns it takes, which sets it builds and what it matches.
`Engine.Documented` states what its documentation says about patterns in parts:
`*`, `?*`, literal text, and patterns on both sides of a dot. `wildcards` is an
engine of the patterns with no other syntax than `?` and `*`.
-/

namespace Glob

open List

structure Engine where
  valid : Str → Bool
  builds : List Str → Bool
  isMatch : Str → Str → Bool

/-- Text without glob syntax. -/
def Literal (p : Str) : Prop := ∀ c ∈ p, c ∉ ("*?[]\x7b\x7d\\/" : Str)

instance (p : Str) : Decidable (Literal p) := List.decidableBAll _ p

/-- `**` has a meaning of its own only beside a `/`. -/
def NoRecursion (p : Str) : Prop := '/' ∉ p ∨ ¬ ("**" : Str) <:+: p

structure Engine.Documented (G : Engine) : Prop where
  star : ∀ host, G.isMatch "*" host = true
  valid_some : G.valid "?*" = true
  some : ∀ host, G.isMatch "?*" host = true ↔ host ≠ []
  valid_literal : ∀ p, Literal p → G.valid p = true
  literal : ∀ p, Literal p → ∀ host,
    G.isMatch p host = true ↔ Str.toAsciiLowercase host = Str.toAsciiLowercase p
  /-- A pattern that stands alone matches the same as a part. -/
  dot : ∀ x d, G.valid x = true → G.valid d = true → NoRecursion x → NoRecursion d → ∀ host,
    G.isMatch (x ++ '.' :: d) host = true ↔
      ∃ u v, host = u ++ '.' :: v ∧ G.isMatch x u = true ∧ G.isMatch d v = true
  valid_dot : ∀ x d, G.valid x = true → G.valid d = true → NoRecursion x → NoRecursion d →
    G.valid (x ++ '.' :: d) = true

theorem Literal.noRecursion {p : Str} (hp : Literal p) : NoRecursion p :=
  .inl fun h => hp '/' h (by decide)

theorem Literal.mono {p q : Str} (hp : Literal p) (h : ∀ c ∈ q, c ∈ p) : Literal q := by
  intro c hc
  exact hp c (h c hc)

/-- Both sides of a dot in a literal. -/
theorem Literal.of_cut {u v : Str} (h : Literal (u ++ '.' :: v)) : Literal u ∧ Literal v := by
  constructor
  · exact h.mono fun c hc => mem_append_left _ hc
  · exact h.mono fun c hc => mem_append_right _ (mem_cons_of_mem _ hc)

/-! ## Patterns under a domain -/

section Some

variable {G : Engine} {d host : Str}

theorem Engine.Documented.some_dot (hG : G.Documented) (hd : Literal d) :
    G.isMatch ("?*." ++ d) host = true ↔ ∃ u v, host = u ++ '.' :: v ∧ u ≠ [] ∧
      Str.toAsciiLowercase v = Str.toAsciiLowercase d := by
  have hmark : NoRecursion "?*" := .inl (by decide)
  have hdot := hG.dot "?*" d hG.valid_some (hG.valid_literal d hd) hmark hd.noRecursion host
  constructor
  · intro h
    obtain ⟨u, v, hhost, hu, hv⟩ := hdot.1 h
    exact ⟨u, v, hhost, (hG.some u).1 hu, (hG.literal d hd v).1 hv⟩
  · rintro ⟨u, v, hhost, hu, hv⟩
    exact hdot.2 ⟨u, v, hhost, (hG.some u).2 hu, (hG.literal d hd v).2 hv⟩

theorem Engine.Documented.valid_some_dot (hG : G.Documented) (hd : Literal d) :
    G.valid ("?*." ++ d) = true := by
  have hmark : NoRecursion "?*" := .inl (by decide)
  exact hG.valid_dot "?*" d hG.valid_some (hG.valid_literal d hd) hmark hd.noRecursion

theorem Engine.Documented.some_dot_nil (hG : G.Documented) (hd : Literal d) :
    G.isMatch ("?*." ++ d) [] = false := by
  by_contra h
  obtain ⟨u, v, hnil, -⟩ := (hG.some_dot hd).1 (eq_true_of_ne_false h)
  simp at hnil

end Some

/-- A set matches what one of its patterns matches. -/
structure GlobSet where
  globs : List Str
  deriving DecidableEq

def GlobSet.isMatch (G : Engine) (set : GlobSet) (host : Str) : Bool :=
  set.globs.any fun g => G.isMatch g host

/-! ## Wildcards -/

/-- `?` for one character, `*` for any number, other characters for themselves. -/
def wild : Str → Str → Bool
  | [], s => s.isEmpty
  | c :: p, s =>
    if c = '*' then s.tails.any (wild p)
    else match s with
      | [] => false
      | d :: s => (c = '?' || Str.asciiLower c = Str.asciiLower d) && wild p s

def wildcards : Engine where
  valid p := p.all fun c => c ∉ ("[]\x7b\x7d\\/" : Str)
  builds _ := true
  isMatch := wild

variable {p q s : Str} {c : Char}

theorem wild_eq : wild (c :: p) s =
    if c = '*' then s.tails.any (wild p)
    else match s with
      | [] => false
      | d :: s => (c = '?' || Str.asciiLower c = Str.asciiLower d) && wild p s := rfl

theorem wild_star : wild ('*' :: p) s = true ↔ ∃ u v, s = u ++ v ∧ wild p v = true := by
  rw [wild_eq, if_pos rfl, any_eq_true]
  constructor
  · rintro ⟨v, hv, hmatch⟩
    obtain ⟨u, rfl⟩ := (mem_tails _ _).1 hv
    exact ⟨u, v, rfl, hmatch⟩
  · rintro ⟨u, v, rfl, hmatch⟩
    exact ⟨v, (mem_tails _ _).2 (suffix_append u v), hmatch⟩

theorem wild_cons (hc : c ≠ '*') : wild (c :: p) s = true ↔
    ∃ d v, s = d :: v ∧ (c = '?' ∨ Str.asciiLower c = Str.asciiLower d) ∧ wild p v = true := by
  rw [wild_eq, if_neg hc]
  cases s with
  | nil => simp
  | cons d v =>
    simp only [Bool.and_eq_true, Bool.or_eq_true, decide_eq_true_eq, List.cons.injEq]
    constructor
    · rintro ⟨hd, hv⟩
      exact ⟨d, v, ⟨rfl, rfl⟩, hd, hv⟩
    · rintro ⟨_, _, ⟨rfl, rfl⟩, hd, hv⟩
      exact ⟨hd, hv⟩

/-- Matching is piecewise. -/
theorem wild_append : wild (p ++ q) s = true ↔
    ∃ u v, s = u ++ v ∧ wild p u = true ∧ wild q v = true := by
  induction p generalizing s with
  | nil =>
    constructor
    · intro h
      exact ⟨[], s, rfl, rfl, h⟩
    · rintro ⟨u, v, rfl, hu, hv⟩
      obtain rfl := List.isEmpty_iff.1 hu
      exact hv
  | cons c p ih =>
    by_cases hc : c = '*'
    · subst hc
      rw [cons_append, wild_star]
      constructor
      · rintro ⟨a, b, rfl, hb⟩
        obtain ⟨u, v, rfl, hu, hv⟩ := ih.1 hb
        exact ⟨a ++ u, v, by simp, wild_star.2 ⟨a, u, rfl, hu⟩, hv⟩
      · rintro ⟨u, v, rfl, hu, hv⟩
        obtain ⟨a, b, rfl, hb⟩ := wild_star.1 hu
        exact ⟨a, b ++ v, by simp, ih.2 ⟨b, v, rfl, hb, hv⟩⟩
    · rw [cons_append, wild_cons hc]
      constructor
      · rintro ⟨d, b, rfl, hd, hb⟩
        obtain ⟨u, v, rfl, hu, hv⟩ := ih.1 hb
        exact ⟨d :: u, v, rfl, (wild_cons hc).2 ⟨d, u, rfl, hd, hu⟩, hv⟩
      · rintro ⟨u, v, rfl, hu, hv⟩
        obtain ⟨d, b, rfl, hd, hb⟩ := (wild_cons hc).1 hu
        exact ⟨d, b ++ v, rfl, hd, ih.2 ⟨b, v, rfl, hb, hv⟩⟩

theorem wild_literal (hp : Literal p) :
    wild p s = true ↔ Str.toAsciiLowercase s = Str.toAsciiLowercase p := by
  induction p generalizing s with
  | nil => simp [wild, Str.toAsciiLowercase]
  | cons c p ih =>
    have hc := hp c mem_cons_self
    have hstar : c ≠ '*' := by
      rintro rfl
      exact hc (by decide)
    have hmark : c ≠ '?' := by
      rintro rfl
      exact hc (by decide)
    have ih := fun v => ih (s := v) fun c' hc' => hp c' (mem_cons_of_mem _ hc')
    rw [wild_cons hstar]
    constructor
    · rintro ⟨d, v, rfl, hd, hv⟩
      have hlower := hd.resolve_left hmark
      simp only [Str.toAsciiLowercase, map_cons, hlower] at ih ⊢
      rw [(ih v).1 hv]
    · intro h
      cases s with
      | nil => cases h
      | cons d v =>
        simp only [Str.toAsciiLowercase, map_cons, List.cons.injEq] at h ih
        exact ⟨d, v, rfl, .inr h.1.symm, (ih v).2 h.2⟩

theorem wildcards_valid : wildcards.valid p = true ↔ ∀ c ∈ p, c ∉ ("[]\x7b\x7d\\/" : Str) := by
  simp [wildcards]

theorem wildcards_documented : wildcards.Documented where
  star host := wild_star.2 ⟨host, [], by simp, rfl⟩
  valid_some := by decide
  some host := by
    show wild _ host = true ↔ _
    have hmark : ('?' : Char) ≠ '*' := by decide
    refine (wild_cons hmark).trans ?_
    constructor
    · rintro ⟨d, v, rfl, -⟩
      simp
    · intro hne
      obtain ⟨d, v, rfl⟩ := exists_cons_of_ne_nil hne
      exact ⟨d, v, rfl, .inl rfl, wild_star.2 ⟨v, [], by simp, rfl⟩⟩
  valid_literal p hp := by
    rw [wildcards_valid]
    intro c hc hin
    exact hp c hc (mem_of_mem_drop (i := 2) hin)
  literal p hp host := wild_literal hp
  dot x d _ _ _ _ host := by
    have hdot : ('.' : Char) ≠ '*' := by decide
    have hmark : ('.' : Char) ≠ '?' := by decide
    show wild _ host = true ↔ ∃ u v, _ ∧ wild x u = true ∧ wild d v = true
    rw [wild_append]
    constructor
    · rintro ⟨u, w, rfl, hu, hw⟩
      obtain ⟨c, v, rfl, hc, hv⟩ := (wild_cons hdot).1 hw
      obtain rfl := Str.asciiLower_eq_dot.1 (hc.resolve_left hmark).symm
      exact ⟨u, v, rfl, hu, hv⟩
    · rintro ⟨u, v, rfl, hu, hv⟩
      exact ⟨u, '.' :: v, rfl, hu, (wild_cons hdot).2 ⟨'.', v, rfl, .inr rfl, hv⟩⟩
  valid_dot x d hx hd _ _ := by
    rw [wildcards_valid] at hx hd ⊢
    intro c hc
    rcases mem_append.1 hc with hc | hc
    · exact hx c hc
    · rcases mem_cons.1 hc with rfl | hc
      · decide
      · exact hd c hc

end Glob
