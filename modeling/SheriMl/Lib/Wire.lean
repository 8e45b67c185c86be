import Mathlib.Algebra.Group.Nat.Defs
import Mathlib.Data.List.Basic

/-!
# A byte stream with attachments

A byte stream on which attachments travel with single bytes, as descriptors do on a Unix socket.
`attach` puts attachments on the first of some bytes; `append_eq_attach` says what a reader finds
that takes any part of such bytes. Below it, numbers as bytes, the least significant first.
-/

namespace Wire

universe u v

variable {β : Type u} {φ : Type v}

/-- The bytes in flight, each with what travels with it. -/
abbrev Cells (β : Type u) (φ : Type v) := List (β × List φ)

def bytes (cells : Cells β φ) : List β := cells.map Prod.fst

def attached (cells : Cells β φ) : List φ := cells.flatMap Prod.snd

def plain (data : List β) : Cells β φ := data.map fun b => (b, [])

/-- The attachments travel with the first byte. -/
def attach : List β → List φ → Cells β φ
  | [], _ => []
  | b :: data, fds => (b, fds) :: plain data

@[simp] theorem bytes_plain (data : List β) : bytes (plain data : Cells β φ) = data := by
  induction data with
  | nil => rfl
  | cons b data ih => exact congrArg (b :: ·) ih

@[simp] theorem attached_plain (data : List β) : attached (plain data : Cells β φ) = [] := by
  induction data with
  | nil => rfl
  | cons b data ih => exact ih

@[simp] theorem plain_nil : (plain [] : Cells β φ) = [] := rfl

theorem plain_append (data more : List β) :
    (plain (data ++ more) : Cells β φ) = plain data ++ plain more := List.map_append

@[simp] theorem plain_eq_nil {data : List β} : (plain data : Cells β φ) = [] ↔ data = [] :=
  List.map_eq_nil_iff

@[simp] theorem length_plain (data : List β) : (plain data : Cells β φ).length = data.length :=
  List.length_map ..

@[simp] theorem attach_nil (data : List β) : attach data ([] : List φ) = plain data := by
  cases data <;> rfl

@[simp] theorem bytes_attach (data : List β) (fds : List φ) : bytes (attach data fds) = data := by
  cases data with
  | nil => rfl
  | cons b data => exact congrArg (b :: ·) (bytes_plain data)

theorem attached_attach {data : List β} (h : data ≠ []) (fds : List φ) :
    attached (attach data fds) = fds := by
  cases data with
  | nil => exact absurd rfl h
  | cons b data =>
    have hrest : attached (plain data : Cells β φ) = [] := attached_plain data
    exact (congrArg (fds ++ ·) hrest).trans (List.append_nil fds)

@[simp] theorem length_attach (data : List β) (fds : List φ) :
    (attach data fds).length = data.length := by
  cases data with
  | nil => rfl
  | cons b data => exact congrArg (· + 1) (length_plain data)

theorem attach_append {data : List β} (h : data ≠ []) (more : List β) (fds : List φ) :
    attach (data ++ more) fds = attach data fds ++ plain more := by
  cases data with
  | nil => exact absurd rfl h
  | cons b data => exact congrArg ((b, fds) :: ·) (plain_append data more)

/-- A reader that takes some cells, and no more of them than there are in `data`, takes bytes of
`data` with the attachments, and finds the other bytes without. -/
theorem append_eq_attach {got ahead rest : Cells β φ} {data : List β} {fds : List φ}
    (h : got ++ ahead = attach data fds ++ rest) (hgot : got ≠ [])
    (hle : got.length ≤ data.length) :
    ∃ first later, data = first ++ later ∧ first ≠ [] ∧ got = attach first fds ∧
      ahead = plain later ++ rest := by
  have hfirst : data.take got.length ≠ [] := by
    have hpos := List.length_pos_iff.2 hgot
    rw [ne_eq, List.take_eq_nil_iff]
    rintro (hzero | hnil)
    · omega
    · rw [hnil] at hle
      exact absurd hle (by simpa using hgot)
  have hdata : data = data.take got.length ++ data.drop got.length :=
    (List.take_append_drop ..).symm
  refine ⟨data.take got.length, data.drop got.length, hdata, hfirst, ?_⟩
  rw [hdata, attach_append hfirst, List.append_assoc] at h
  exact List.append_inj h (by rw [length_attach, List.length_take, Nat.min_eq_left hle])

/-! ## Numbers as bytes -/

/-- `to_le_bytes` of a number of so many bytes. -/
def toLeBytes : Nat → Nat → List UInt8
  | 0, _ => []
  | size + 1, n => UInt8.ofNat n :: toLeBytes size (n / 256)

def fromLeBytes : List UInt8 → Nat
  | [] => 0
  | b :: data => b.toNat + 256 * fromLeBytes data

@[simp] theorem length_toLeBytes (size n : Nat) : (toLeBytes size n).length = size := by
  induction size generalizing n with
  | zero => rfl
  | succ size ih => exact congrArg (· + 1) (ih _)

theorem fromLeBytes_toLeBytes {size n : Nat} (h : n < 256 ^ size) :
    fromLeBytes (toLeBytes size n) = n := by
  induction size generalizing n with
  | zero =>
    rw [Nat.pow_zero] at h
    exact (Nat.lt_one_iff.1 h).symm
  | succ size ih =>
    have hdiv : n / 256 < 256 ^ size := by
      rw [Nat.div_lt_iff_lt_mul (by decide)]
      rwa [Nat.pow_succ] at h
    have hlow : (UInt8.ofNat n).toNat = n % 256 := UInt8.toNat_ofNat ..
    rw [toLeBytes, fromLeBytes, ih hdiv, hlow]
    exact Nat.mod_add_div n 256

end Wire
