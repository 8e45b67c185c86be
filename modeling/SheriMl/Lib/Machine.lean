import Mathlib.Algebra.Group.Int.Defs
import Mathlib.Algebra.Group.Nat.Defs
import Mathlib.Data.Nat.Init
import Mathlib.Data.Int.Init

/-!
# Machine arithmetic

Computations that may return early or crash: integers of 64 and 32 bits, whose overflow crashes
in a build that checks it and wraps around in another one, indexing, and buffers of a given
capacity. What is computed within the bounds is exact in either build.
-/

namespace Machine

universe u v

/-- The integer types. -/
inductive IntTy where
  | usize
  | isize
  | i32
  deriving DecidableEq

def IntTy.max : IntTy → Int
  | usize => 2 ^ 64 - 1
  | isize => 2 ^ 63 - 1
  | i32 => 2 ^ 31 - 1

def IntTy.min : IntTy → Int
  | usize => 0
  | isize => -2 ^ 63
  | i32 => -2 ^ 31

def IntTy.wrap (x : Int) : IntTy → Int
  | usize => x % 2 ^ 64
  | isize => x.bmod (2 ^ 64)
  | i32 => x.bmod (2 ^ 32)

inductive Crash where
  | overflow (ty : IntTy)
  | outOfBounds
  | capacityOverflow
  | outOfMemory
  deriving DecidableEq

/-- Why there is no result: a return with `r` instead, a crash, or no fuel. -/
inductive Stop (ρ : Type u) where
  | returns (r : ρ)
  | crash (c : Crash)
  | running
  deriving DecidableEq

/-- A build, and how many bytes its allocator grants at once. -/
structure Build where
  overflowChecks : Bool
  allocates : Nat → Bool

variable {ρ : Type u} {α : Type v} {m : Build} {x : Int} {n : Nat}

theorem ok_bind {ε : Type u} {β : Type v} (a : α) (f : α → Except ε β) :
    (Except.ok a >>= f) = f a := rfl

/-- The result of an operation, before it is known to fit. -/
def Build.fit (m : Build) (ty : IntTy) (x : Int) : Except (Stop ρ) Int :=
  if ty.min ≤ x ∧ x ≤ ty.max then .ok x
  else if m.overflowChecks then .error (.crash (.overflow ty))
  else .ok (ty.wrap x)

def Build.usize (m : Build) (x : Int) : Except (Stop ρ) Nat := (m.fit .usize x).map Int.toNat

def Build.isize (m : Build) (x : Int) : Except (Stop ρ) Int := m.fit .isize x

def Build.i32 (m : Build) (x : Int) : Except (Stop ρ) Int := m.fit .i32 x

/-- `as usize`. -/
def asUsize (x : Int) : Nat := (IntTy.usize.wrap x).toNat

/-- `as isize`. -/
def asIsize (n : Nat) : Int := IntTy.isize.wrap n

def index (l : List α) (i : Nat) : Except (Stop ρ) α :=
  match l[i]? with
  | some a => .ok a
  | none => .error (.crash .outOfBounds)

/-- A buffer for `n` entries of a size: nothing is allocated for none, and no more than
`isize::MAX` bytes. -/
def Build.withCapacity (m : Build) (n size : Nat) : Except (Stop ρ) Unit :=
  if IntTy.isize.max < n * size then .error (.crash .capacityOverflow)
  else if n * size = 0 || m.allocates (n * size) then .ok ()
  else .error (.crash .outOfMemory)

theorem Build.fit_eq_ok {ty : IntTy} (hmin : ty.min ≤ x) (hmax : x ≤ ty.max) :
    (m.fit ty x : Except (Stop ρ) Int) = .ok x := if_pos ⟨hmin, hmax⟩

theorem Build.usize_eq_ok (hx : x = n) (h : x ≤ IntTy.usize.max) :
    (m.usize x : Except (Stop ρ) Nat) = .ok n := by
  subst hx
  rw [Build.usize, Build.fit_eq_ok (Int.natCast_nonneg n) h]
  rfl

theorem Build.isize_eq_ok (hmin : IntTy.isize.min ≤ x) (hmax : x ≤ IntTy.isize.max) :
    (m.isize x : Except (Stop ρ) Int) = .ok x := Build.fit_eq_ok hmin hmax

theorem Build.i32_cases (ρ : Type u) (m : Build) (x : Int) :
    (∃ y, (m.i32 x : Except (Stop ρ) Int) = .ok y ∧ (m.overflowChecks = true → y = x)) ∨
      ((m.i32 x : Except (Stop ρ) Int) = .error (.crash (.overflow .i32)) ∧
        m.overflowChecks = true ∧ ¬(IntTy.i32.min ≤ x ∧ x ≤ IntTy.i32.max)) := by
  unfold Build.i32 Build.fit
  split
  next => exact .inl ⟨x, rfl, fun _ => rfl⟩
  next hout =>
    split
    next hchecks => exact .inr ⟨rfl, hchecks, hout⟩
    next hchecks => exact .inl ⟨_, rfl, fun h => absurd h hchecks⟩

theorem Build.usize_cases (ρ : Type u) (m : Build) (n : Nat) :
    (∃ k, (m.usize n : Except (Stop ρ) Nat) = .ok k ∧
        (m.overflowChecks = true → (n : Int) ≤ IntTy.usize.max)) ∨
      ((m.usize n : Except (Stop ρ) Nat) = .error (.crash (.overflow .usize)) ∧
        m.overflowChecks = true ∧ IntTy.usize.max < n) := by
  unfold Build.usize Build.fit
  split
  next hin => exact .inl ⟨_, rfl, fun _ => hin.2⟩
  next hout =>
    split
    next hchecks =>
      have hmax : ¬(n : Int) ≤ IntTy.usize.max := fun h => hout ⟨Int.natCast_nonneg n, h⟩
      exact .inr ⟨rfl, hchecks, Int.not_le.1 hmax⟩
    next hchecks => exact .inl ⟨_, rfl, fun h => absurd h hchecks⟩

theorem asUsize_natCast (h : (n : Int) ≤ IntTy.usize.max) : asUsize n = n := by
  have hmax : IntTy.usize.max = 2 ^ 64 - 1 := rfl
  rw [asUsize, IntTy.wrap, Int.emod_eq_of_lt (Int.natCast_nonneg n) (by omega), Int.toNat_natCast]

theorem asIsize_eq (h : (n : Int) ≤ IntTy.isize.max) : asIsize n = n := by
  have hmax : IntTy.isize.max = 2 ^ 63 - 1 := rfl
  rw [asIsize, IntTy.wrap]
  apply Int.bmod_eq_of_le <;> omega

theorem index_eq_ok {l : List α} {a : α} (h : l[n]? = some a) :
    (index l n : Except (Stop ρ) α) = .ok a := by
  rw [index, h]

def Build.Grants (m : Build) (n size : Nat) : Prop :=
  (n * size : Int) ≤ IntTy.isize.max ∧ (n * size = 0 ∨ m.allocates (n * size) = true)

theorem Build.withCapacity_of_grants {size : Nat} (h : m.Grants n size) :
    (m.withCapacity n size : Except (Stop ρ) Unit) = .ok () := by
  have hcapacity : ¬IntTy.isize.max < (n * size : Int) := Int.not_lt.2 h.1
  rw [Build.withCapacity, if_neg hcapacity, if_pos]
  rw [Bool.or_eq_true, decide_eq_true_eq]
  exact h.2

theorem Build.withCapacity_of_not_grants (ρ : Type u) {size : Nat} (h : ¬m.Grants n size) :
    (m.withCapacity n size : Except (Stop ρ) Unit) = .error (.crash .capacityOverflow) ∨
      (m.withCapacity n size : Except (Stop ρ) Unit) = .error (.crash .outOfMemory) := by
  unfold Build.withCapacity
  split
  next => exact .inl rfl
  next hcapacity =>
    split
    next halloc =>
      rw [Bool.or_eq_true, decide_eq_true_eq] at halloc
      exact absurd ⟨Int.not_lt.1 hcapacity, halloc⟩ h
    next => exact .inr rfl

end Machine
