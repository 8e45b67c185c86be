import Mathlib.Algebra.Order.Ring.Nat
import Mathlib.Data.Nat.Log
import Mathlib.Tactic.Ring

/-!
# Numbers of 53 bits

What rounding to a 64-bit float makes of a number, up to a power of two: the nearest one with 53
significant bits, of two the even one. It is more by a part of 2⁻⁵³ at most (`round_le`). A fraction
is counted in units of 2⁻¹⁰⁷⁴, the least float (`ofFraction`); it gets to a power of two from half
a unit in the last place below it on (`pow_le_ofFraction_iff`).
-/

namespace Float64

/-- How many bits of a number are rounded away. -/
def excess (n : Nat) : Nat := Nat.log2 n + 1 - 53

def round (n : Nat) : Nat :=
  let ulp := 2 ^ excess n
  let rest := n % ulp
  if ulp < 2 * rest ∨ 2 * rest = ulp ∧ n / ulp % 2 = 1 then (n / ulp + 1) * ulp else n / ulp * ulp

variable {n : Nat}

/-- It is more by half a unit in the last place at most. -/
theorem two_mul_round_le (n : Nat) : 2 * round n ≤ 2 * n + 2 ^ excess n := by
  have hn : 2 ^ excess n * (n / 2 ^ excess n) + n % 2 ^ excess n = n := Nat.div_add_mod _ _
  rw [Nat.mul_comm] at hn
  rw [round]
  split
  next hup =>
    have hrest : 2 ^ excess n ≤ 2 * (n % 2 ^ excess n) := by
      rcases hup with hlt | ⟨heq, -⟩
      · exact Nat.le_of_lt hlt
      · exact Nat.le_of_eq heq.symm
    rw [Nat.add_mul, Nat.one_mul]
    omega
  next => omega

/-- Numbers of 53 bits stay as they are. -/
theorem round_of_excess (h : excess n = 0) : round n = n := by
  have hmod : n % 1 = 0 := Nat.mod_one n
  simp [round, h, hmod]

theorem pow_le_of_excess (h : excess n ≠ 0) : 2 ^ (52 + excess n) ≤ n := by
  have hlog : Nat.log2 n = 52 + excess n := by
    rw [excess] at h ⊢
    omega
  have hne : n ≠ 0 := by
    rintro rfl
    exact h rfl
  rw [← hlog]
  exact Nat.log2_self_le hne

theorem round_le (n : Nat) : round n * 2 ^ 53 ≤ n * (2 ^ 53 + 1) := by
  by_cases hexcess : excess n = 0
  · rw [round_of_excess hexcess]
    exact Nat.mul_le_mul_left n (Nat.le_succ _)
  · have hulp : 2 ^ excess n * 2 ^ 52 ≤ n := by
      rw [← Nat.pow_add, Nat.add_comm]
      exact pow_le_of_excess hexcess
    calc round n * 2 ^ 53 = 2 * round n * 2 ^ 52 := by ring
      _ ≤ (2 * n + 2 ^ excess n) * 2 ^ 52 := Nat.mul_le_mul_right _ (two_mul_round_le n)
      _ = n * 2 ^ 53 + 2 ^ excess n * 2 ^ 52 := by ring
      _ ≤ n * 2 ^ 53 + n := Nat.add_le_add_left hulp _
      _ = n * (2 ^ 53 + 1) := by ring

/-! ## Fractions -/

/-- The whole number nearest to a quotient, of two the even one. -/
def divRound (a b : Nat) : Nat :=
  if b < 2 * (a % b) ∨ 2 * (a % b) = b ∧ a / b % 2 = 1 then a / b + 1 else a / b

/-- A quotient rounded to 53 bits. -/
def divFloat (a b : Nat) : Nat :=
  divRound a (b * 2 ^ excess (a / b)) * 2 ^ excess (a / b)

/-- The exponent of the least float, less its sign. -/
def leastExponent : Nat := 1074

def one : Nat := 2 ^ leastExponent

theorem one_pos : 0 < one := Nat.two_pow_pos leastExponent

/-- The float nearest to `n / d`, in units of the least float. Its exponent has no bound, so that
from 2¹⁰²⁴ on it is a number where a float is infinite. -/
def ofFraction (n d : Nat) : Nat := divFloat (n * one) d

variable {a b m k : Nat}

theorem div_le_divRound (a b : Nat) : a / b ≤ divRound a b := by
  rw [divRound]
  split
  · exact Nat.le_succ _
  · exact Nat.le_refl _

theorem divRound_le_succ (a b : Nat) : divRound a b ≤ a / b + 1 := by
  rw [divRound]
  split
  · exact Nat.le_refl _
  · exact Nat.le_succ _

/-- An even number is reached from half below it on. -/
theorem succ_le_divRound_iff (hb : 0 < b) (hm : m % 2 = 1) :
    m + 1 ≤ divRound a b ↔ (2 * m + 1) * b ≤ 2 * a := by
  have hdiv : b * (a / b) + a % b = a := Nat.div_add_mod a b
  have hrest : a % b < b := Nat.mod_lt a hb
  have hsplit : (2 * m + 1) * b = 2 * (b * m) + b := by ring
  rcases Nat.lt_trichotomy (a / b) m with hlt | heq | hgt
  · have hnext : b * (a / b) + b ≤ b * m := by
      rw [← Nat.mul_succ]
      exact Nat.mul_le_mul_left b hlt
    have hround : divRound a b ≤ a / b + 1 := divRound_le_succ a b
    omega
  · rw [divRound, heq]
    rw [heq] at hdiv
    split
    next hup => omega
    next hdown => omega
  · have hnext : b * m + b ≤ b * (a / b) := by
      rw [← Nat.mul_succ]
      exact Nat.mul_le_mul_left b hgt
    have hround : a / b ≤ divRound a b := div_le_divRound a b
    omega

theorem divRound_le (h : a < m * b) : divRound a b ≤ m :=
  Nat.le_trans (divRound_le_succ a b) (Nat.div_lt_of_lt_mul (Nat.mul_comm m b ▸ h))

theorem lt_pow_of_excess (n : Nat) : n < 2 ^ (53 + excess n) := by
  have hlog : Nat.log2 n + 1 ≤ 53 + excess n := by
    rw [excess]
    omega
  exact Nat.lt_of_lt_of_le Nat.lt_log2_self (Nat.pow_le_pow_right (by decide) hlog)

/-- Rounding stays between the powers of two that its unit is for. -/
theorem divRound_mul_le {e : Nat} (h : a < 2 ^ (53 + e) * b) :
    divRound a (b * 2 ^ e) * 2 ^ e ≤ 2 ^ (53 + e) := by
  rw [Nat.pow_add] at h ⊢
  refine Nat.mul_le_mul_right _ (divRound_le ?_)
  calc a < 2 ^ 53 * 2 ^ e * b := h
    _ = 2 ^ 53 * (b * 2 ^ e) := by ring

theorem le_divRound_mul {e : Nat} (hb : 0 < b) (h : 2 ^ (52 + e) * b ≤ a) :
    2 ^ (52 + e) ≤ divRound a (b * 2 ^ e) * 2 ^ e := by
  rw [Nat.pow_add] at h ⊢
  refine Nat.mul_le_mul_right _ (Nat.le_trans ?_ (div_le_divRound a _))
  refine (Nat.le_div_iff_mul_le (Nat.mul_pos hb (Nat.two_pow_pos e))).mpr ?_
  calc 2 ^ 52 * (b * 2 ^ e) = 2 ^ 52 * 2 ^ e * b := by ring
    _ ≤ a := h

/-- The last number of 53 bits below a power of two is odd, so the middle between them goes up. -/
theorem pow_le_divFloat_iff (hb : 0 < b) :
    2 ^ (k + 54) ≤ divFloat a b ↔ (2 ^ 54 - 1) * 2 ^ k * b ≤ a := by
  have hlow : excess (a / b) ≠ 0 → 2 ^ (52 + excess (a / b)) * b ≤ a := fun hexcess =>
    (Nat.le_div_iff_mul_le hb).mp (pow_le_of_excess hexcess)
  have hhigh : a < 2 ^ (53 + excess (a / b)) * b :=
    (Nat.div_lt_iff_lt_mul hb).mp (lt_pow_of_excess _)
  have hk : 0 < 2 ^ k := Nat.two_pow_pos k
  have htop : 2 ^ (k + 54) = 2 ^ 54 * 2 ^ k := by ring
  rw [divFloat]
  generalize excess (a / b) = e at *
  rcases Nat.lt_trichotomy e (k + 1) with hlt | rfl | hgt
  · -- in a lower binade neither side holds
    have hpow : 2 ^ (53 + e) ≤ 2 ^ 53 * 2 ^ k := by
      rw [← Nat.pow_add]
      exact Nat.pow_le_pow_right (by decide) (by omega)
    have hround : divRound a (b * 2 ^ e) * 2 ^ e ≤ 2 ^ (53 + e) := divRound_mul_le hhigh
    have hquot : a < (2 ^ 54 - 1) * 2 ^ k * b :=
      Nat.lt_of_lt_of_le hhigh (Nat.mul_le_mul_right b (by omega))
    omega
  · have hulp : 0 < b * 2 ^ (k + 1) := Nat.mul_pos hb (Nat.two_pow_pos _)
    have hdouble : (2 * (2 ^ 53 - 1) + 1) * (b * 2 ^ (k + 1)) = 2 * ((2 ^ 54 - 1) * 2 ^ k * b) := by
      rw [Nat.pow_succ]
      ring
    have hunits : 2 ^ (k + 54) = (2 ^ 53 - 1 + 1) * 2 ^ (k + 1) := by ring
    rw [hunits, Nat.mul_le_mul_right_iff (Nat.two_pow_pos _),
      succ_le_divRound_iff hulp (by decide), hdouble, Nat.mul_le_mul_left_iff (by decide)]
  · -- in a higher binade both do
    have hquot : 2 ^ (52 + e) * b ≤ a := hlow (by omega)
    have hpow : 2 ^ 54 * 2 ^ k ≤ 2 ^ (52 + e) := by
      rw [← Nat.pow_add]
      exact Nat.pow_le_pow_right (by decide) (by omega)
    have hround : 2 ^ (52 + e) ≤ divRound a (b * 2 ^ e) * 2 ^ e := le_divRound_mul hb hquot
    have hmiddle : (2 ^ 54 - 1) * 2 ^ k * b ≤ a :=
      Nat.le_trans (Nat.mul_le_mul_right b (by omega)) hquot
    omega

/-- A fraction gets to `2 ^ p` from `2 ^ p - 2 ^ (p - 54)` on. -/
theorem pow_le_ofFraction_iff {n d p : Nat} (hd : 0 < d) (hp : 54 ≤ p) :
    2 ^ p * one ≤ ofFraction n d ↔ (2 ^ 54 - 1) * 2 ^ (p - 54) * d ≤ n := by
  have hpow : 2 ^ p * one = 2 ^ (p - 54 + leastExponent + 54) := by
    rw [one, ← Nat.pow_add]
    congr 1
    omega
  have hunits : (2 ^ 54 - 1) * 2 ^ (p - 54 + leastExponent) * d =
      (2 ^ 54 - 1) * 2 ^ (p - 54) * d * one := by
    rw [one, Nat.pow_add]
    ring
  rw [ofFraction, hpow, pow_le_divFloat_iff hd, hunits,
    Nat.mul_le_mul_right_iff one_pos]

end Float64
