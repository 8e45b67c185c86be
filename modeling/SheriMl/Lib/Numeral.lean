import Mathlib.Algebra.Order.Group.Nat
import SheriMl.Lib.Str

/-!
# Numerals

A number written in decimal, as `to_string` and `format!` write it, can be read again: no two
numbers are written the same (`Decimal.toString_inj`), and there are only digits. Numbers written
with a fixed number of digits, and texts of such fields with fixed separators, are written as in
times and UUIDs. Reading inverts writing where the numbers fit (`readFields_writeFields`).
-/

namespace Decimal

open List

variable {m n : Nat} {c : Char}

theorem toDigits_inj (h : Nat.toDigits 10 m = Nat.toDigits 10 n) : m = n :=
  calc
    m = Nat.ofDigitChars 10 (Nat.toDigits 10 m) 0 := Nat.ofDigitChars_ten_toDigits.symm
    _ = Nat.ofDigitChars 10 (Nat.toDigits 10 n) 0 := by rw [h]
    _ = n := Nat.ofDigitChars_ten_toDigits

theorem toList_toString (n : Nat) : (toString n).toList = Nat.toDigits 10 n := by
  rw [Nat.toString_eq_repr, Nat.toList_repr]

theorem toString_inj (h : (toString m).toList = (toString n).toList) : m = n := by
  rw [toList_toString, toList_toString] at h
  exact toDigits_inj h

theorem isDigit_of_mem (h : c ∈ (toString n).toList) : c.isDigit = true := by
  rw [toList_toString] at h
  exact Nat.isDigit_of_mem_toDigits (by decide) (by decide) h

theorem notMem_toString (n : Nat) (hc : c.isDigit = false) : c ∉ (toString n).toList := by
  intro hmem
  rw [isDigit_of_mem hmem] at hc
  cases hc

end Decimal

namespace Numeral

open List

variable {base w n m : Nat} {c : Char} {s rest : Str}

def digitValue (base : Nat) (c : Char) : Option Nat :=
  (List.range base).find? fun d => Nat.digitChar d == c

/-- The last `w` digits of a number. -/
def write (base : Nat) : Nat → Nat → Str
  | 0, _ => []
  | w + 1, n => write base w (n / base) ++ [Nat.digitChar (n % base)]

def read (base : Nat) (s : Str) : Option Nat :=
  s.foldlM (fun n c => (digitValue base c).map (n * base + ·)) 0

theorem digitValue_digitChar (hbase : base ≤ 16) (hn : n < base) :
    digitValue base (Nat.digitChar n) = some n := by
  have hall : ∀ d < 16, ∀ d' < d, Nat.digitChar d' ≠ Nat.digitChar d := by decide
  refine List.find?_range_eq_some.2 ⟨beq_self_eq_true _, mem_range.2 hn, ?_⟩
  intro d hd
  simpa using hall n (by omega) d hd

@[simp] theorem length_write (base w n : Nat) : (write base w n).length = w := by
  induction w generalizing n with
  | zero => rfl
  | succ w ih => rw [write, length_append, ih, length_singleton]

theorem read_append_singleton (s : Str) (c : Char) :
    read base (s ++ [c]) = (read base s).bind fun n => (digitValue base c).map (n * base + ·) := by
  rw [read, foldlM_append]
  simp [read]

theorem read_write (hbase : 1 < base) (hbase' : base ≤ 16) (hn : n < base ^ w) :
    read base (write base w n) = some n := by
  induction w generalizing n with
  | zero =>
    have hzero : n = 0 := by simpa using hn
    rw [hzero]
    rfl
  | succ w ih =>
    have hdiv : n / base < base ^ w := Nat.div_lt_of_lt_mul (by rwa [Nat.pow_succ'] at hn)
    have hmod : n % base < base := Nat.mod_lt n (by omega)
    rw [write, read_append_singleton, ih hdiv, Option.bind_some,
      digitValue_digitChar hbase' hmod, Option.map_some, Nat.div_add_mod']

theorem mem_write (hc : c ∈ write base w n) : ∃ d, c = Nat.digitChar d := by
  induction w generalizing n with
  | zero => cases hc
  | succ w ih =>
    rcases mem_append.1 hc with hc | hc
    · exact ih hc
    · exact ⟨_, mem_singleton.1 hc⟩

/-! ## Fields -/

/-- A number of a fixed width, and what is written after it. -/
structure Field where
  width : Nat
  sep : Str

variable {fields : List Field} {ns : List Nat}

/-- The numbers have no more digits than their fields. -/
abbrev Fits (base : Nat) : List Field → List Nat → Prop :=
  List.Forall₂ fun field n => n < base ^ field.width

def writeFields (base : Nat) : List Field → List Nat → Str
  | field :: fields, n :: ns =>
    write base field.width n ++ (field.sep ++ writeFields base fields ns)
  | _, _ => []

/-- The numbers of some fields, and what follows them. -/
def readFields (base : Nat) : List Field → Str → Option (List Nat × Str)
  | [], s => some ([], s)
  | field :: fields, s =>
    if s.length < field.width then none
    else
      (read base (s.take field.width)).bind fun n =>
        (Str.stripPrefix (s.drop field.width) field.sep).bind fun rest =>
          (readFields base fields rest).map fun read => (n :: read.1, read.2)

theorem readFields_writeFields (hbase : 1 < base) (hbase' : base ≤ 16)
    (hfit : Fits base fields ns) (rest : Str) :
    readFields base fields (writeFields base fields ns ++ rest) = some (ns, rest) := by
  induction hfit with
  | nil => rfl
  | @cons field n fields ns hn _ ih =>
    have hlength : field.width = (write base field.width n).length := (length_write ..).symm
    rw [writeFields, readFields, if_neg (by simp), append_assoc, append_assoc,
      take_left' hlength.symm, drop_left' hlength.symm, read_write hbase hbase' hn,
      Option.bind_some, Str.stripPrefix_eq_some.2 rfl, Option.bind_some, ih, Option.map_some]

/-- How long a text of some fields is. -/
def span (fields : List Field) : Nat := (fields.map fun field => field.width + field.sep.length).sum

theorem length_of_readFields (h : readFields base fields s = some (ns, rest)) :
    s.length = span fields + rest.length := by
  induction fields generalizing s ns with
  | nil =>
    cases h
    simp [span]
  | cons field fields ih =>
    rw [readFields] at h
    split at h
    · cases h
    · next hlength =>
      obtain ⟨n, _, h⟩ := Option.bind_eq_some_iff.1 h
      obtain ⟨s', hs', h⟩ := Option.bind_eq_some_iff.1 h
      obtain ⟨read, hread, heq⟩ := Option.map_eq_some_iff.1 h
      cases heq
      have hdrop := congrArg List.length (Str.stripPrefix_eq_some.1 hs')
      have hrest := ih hread
      rw [length_drop, length_append] at hdrop
      rw [span, map_cons, sum_cons, ← span]
      omega

theorem mem_writeFields (hc : c ∈ writeFields base fields ns) :
    (∃ d, c = Nat.digitChar d) ∨ ∃ field ∈ fields, c ∈ field.sep := by
  induction fields generalizing ns with
  | nil => cases hc
  | cons field fields ih =>
    cases ns with
    | nil => cases hc
    | cons n ns =>
      rcases mem_append.1 hc with hc | hc
      · exact .inl (mem_write hc)
      · rcases mem_append.1 hc with hc | hc
        · exact .inr ⟨field, mem_cons_self, hc⟩
        · rcases ih hc with hdigit | ⟨field', hmem, hsep⟩
          · exact .inl hdigit
          · exact .inr ⟨field', mem_cons_of_mem _ hmem, hsep⟩

end Numeral
