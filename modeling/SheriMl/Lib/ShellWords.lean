import Mathlib.Data.List.Basic

/-!
# Shell words

A text is split into words as a POSIX shell does it: at blanks outside of quotes, with quotes and
backslashes taken away, and without comments (`split`). A word that is not complete at the end of
the text is dropped. The letters are of any type; what matters is their kind. Where ordinary letters
are written out as several ordinary letters, the words are the same ones, written out
(`split_flatMap`).
-/

namespace ShellWords

universe u v

inductive Kind where
  | ordinary
  | blank
  | newline
  | singleQuote
  | doubleQuote
  | backslash
  | hash
  /-- takes a backslash away in double quotes -/
  | expansion
  deriving DecidableEq

def charKind (c : Char) : Kind :=
  if c = ' ' ∨ c = '\t' then .blank
  else if c = '\n' then .newline
  else if c = '\'' then .singleQuote
  else if c = '"' then .doubleQuote
  else if c = '\\' then .backslash
  else if c = '#' then .hash
  else if c = '$' ∨ c = '\x60' then .expansion
  else .ordinary

/-- Where a text is read, with the word so far. After a backslash in double quotes, the word also
with the backslash. -/
inductive Mode (α : Type u) where
  | between
  | comment
  | word (w : List α)
  | escape (w : List α)
  | single (w : List α)
  | double (w : List α)
  | doubleEscape (w withBackslash : List α)

section Split

variable {α : Type u} (kind : α → Kind)

/-- A letter in a word, and the word that it ends. -/
def inWord (w : List α) (a : α) : Mode α × Option (List α) :=
  match kind a with
  | .blank | .newline => (.between, some w)
  | .singleQuote => (.single w, none)
  | .doubleQuote => (.double w, none)
  | .backslash => (.escape w, none)
  | .ordinary | .hash | .expansion => (.word (w ++ [a]), none)

def step : Mode α → α → Mode α × Option (List α)
  | .between, a =>
    match kind a with
    | .blank | .newline => (.between, none)
    | .hash => (.comment, none)
    | _ => inWord kind [] a
  | .comment, a => (if kind a = .newline then .between else .comment, none)
  | .word w, a => inWord kind w a
  | .escape w, a => (.word (if kind a = .newline then w else w ++ [a]), none)
  | .single w, a => (if kind a = .singleQuote then .word w else .single (w ++ [a]), none)
  | .double w, a =>
    match kind a with
    | .doubleQuote => (.word w, none)
    | .backslash => (.doubleEscape w (w ++ [a]), none)
    | _ => (.double (w ++ [a]), none)
  | .doubleEscape w withBackslash, a =>
    match kind a with
    | .expansion | .doubleQuote | .backslash => (.double (w ++ [a]), none)
    | .newline => (.double w, none)
    | _ => (.double (withBackslash ++ [a]), none)

/-- The word that the end of the text ends. -/
def Mode.last : Mode α → Option (List α)
  | .word w => some w
  | _ => none

def splitFrom (m : Mode α) : List α → List (List α)
  | [] => m.last.toList
  | a :: s => (step kind m a).2.toList ++ splitFrom (step kind m a).1 s

def split (s : List α) : List (List α) := splitFrom kind .between s

end Split

example : split charKind "a 'b c'd \"e\\\"f\" # g".toList =
    ["a", "b cd", "e\"f"].map String.toList := by decide

/-! ## Letters written out -/

namespace Mode

variable {α : Type u} {β : Type v} {f : α → List β} {m : Mode α}

/-- Ordinary letters that come in a row. -/
def push (m : Mode α) (l : List α) : Mode α :=
  match m with
  | .between => .word l
  | .comment => .comment
  | .word w | .escape w => .word (w ++ l)
  | .single w => .single (w ++ l)
  | .double w => .double (w ++ l)
  | .doubleEscape _ withBackslash => .double (withBackslash ++ l)

def flatMap (f : α → List β) : Mode α → Mode β
  | .between => .between
  | .comment => .comment
  | .word w => .word (w.flatMap f)
  | .escape w => .escape (w.flatMap f)
  | .single w => .single (w.flatMap f)
  | .double w => .double (w.flatMap f)
  | .doubleEscape w withBackslash => .doubleEscape (w.flatMap f) (withBackslash.flatMap f)

theorem push_push (k l : List α) : (m.push k).push l = m.push (k ++ l) := by
  cases m <;> simp [push]

end Mode

variable {α : Type u} {β : Type v} {kind : α → Kind} {kind' : β → Kind} {f : α → List β}
  {m : Mode α} {a : α}

theorem step_ordinary (h : kind a = .ordinary) : step kind m a = (m.push [a], none) := by
  cases m <;> simp [step, inWord, Mode.push, h]

theorem splitFrom_ordinary {l : List α} (hne : l ≠ []) (h : ∀ a ∈ l, kind a = .ordinary)
    (s : List α) : splitFrom kind m (l ++ s) = splitFrom kind (m.push l) s := by
  induction l generalizing m with
  | nil => exact absurd rfl hne
  | cons a l ih =>
    obtain ⟨ha, hl⟩ := List.forall_mem_cons.1 h
    rw [List.cons_append, splitFrom, step_ordinary ha]
    by_cases hnil : l = []
    · rw [hnil]
      rfl
    · have hpush : (m.push [a]).push l = m.push (a :: l) := Mode.push_push [a] l
      rw [← hpush]
      exact ih hnil hl

/-- A letter is written as one of its kind, or an ordinary one as some ordinary ones. -/
def Writes (kind : α → Kind) (kind' : β → Kind) (f : α → List β) : Prop :=
  ∀ a, (∃ b, f a = [b] ∧ kind' b = kind a) ∨
    kind a = .ordinary ∧ f a ≠ [] ∧ ∀ b ∈ f a, kind' b = .ordinary

theorem step_flatMap {b : β} (hf : f a = [b]) (hb : kind' b = kind a) :
    step kind' (m.flatMap f) b =
      ((step kind m a).1.flatMap f, (step kind m a).2.map fun w => w.flatMap f) := by
  cases m <;> cases ha : kind a <;>
    simp [step, inWord, Mode.flatMap, hb, ha, hf]

theorem push_flatMap (m : Mode α) (l : List α) :
    (m.push l).flatMap f = (m.flatMap f).push (l.flatMap f) := by
  cases m <;> simp [Mode.push, Mode.flatMap]

theorem splitFrom_flatMap (h : Writes kind kind' f) (m : Mode α) (s : List α) :
    splitFrom kind' (m.flatMap f) (s.flatMap f) =
      (splitFrom kind m s).map fun w => w.flatMap f := by
  induction s generalizing m with
  | nil => cases m <;> simp [splitFrom, Mode.last, Mode.flatMap]
  | cons a s ih =>
    rw [List.flatMap_cons, splitFrom, List.map_append, ← ih]
    rcases h a with ⟨b, hf, hb⟩ | ⟨ha, hne, hordinary⟩
    · rw [hf, List.singleton_append, splitFrom, step_flatMap hf hb]
      cases (step kind m a).2 <;> rfl
    · rw [splitFrom_ordinary hne hordinary, step_ordinary ha, push_flatMap]
      simp

theorem split_flatMap (h : Writes kind kind' f) (s : List α) :
    split kind' (s.flatMap f) = (split kind s).map fun w => w.flatMap f :=
  splitFrom_flatMap h .between s

end ShellWords
