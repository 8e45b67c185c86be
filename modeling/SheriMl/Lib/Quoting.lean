import SheriMl.Lib.Str

/-!
# Shell quoting

A shell word read one character at a time: outside quotes, inside single or
double quotes, or just past a backslash. Two readings run along the same modes.
Quote removal (`unquote`) is the shell's: it drops the quotes and the backslashes
that quote something. `stripQuotes` drops the quotes only. They agree on a word
exactly when no backslash of it quotes anything.
-/

/-! ## Machines that write as they read -/

namespace Machine

open List

variable {σ α β : Type} (next : σ → α → σ) (out : σ → α → List β)

/-- What a machine writes on a text read from a state. -/
def output : σ → List α → List β
  | _, [] => []
  | m, c :: s => out m c ++ output (next m c) s

@[simp] theorem output_nil (m : σ) : output next out m [] = [] := rfl

@[simp] theorem output_cons (m : σ) (c : α) (s : List α) :
    output next out m (c :: s) = out m c ++ output next out (next m c) s := rfl

theorem output_append (m : σ) (s t : List α) :
    output next out m (s ++ t) =
      output next out m s ++ output next out (s.foldl next m) t := by
  induction s generalizing m with
  | nil => rfl
  | cons c s ih =>
    rw [cons_append, output_cons, output_cons, ih, append_assoc, foldl_cons]

end Machine

namespace Quoting

open List

/-- How the next character of a word is read. -/
inductive Mode where
  | bare
  | escaped
  | single
  | double
  | doubleEscaped
  deriving DecidableEq

/-- The characters a backslash quotes inside double quotes. -/
def isSpecial (c : Char) : Bool :=
  c = '$' || c = '`' || c = '"' || c = '\\' || c = '\n'

def next : Mode → Char → Mode
  | .bare, c =>
    if c = '\\' then .escaped else if c = '\'' then .single else if c = '"' then .double else .bare
  | .escaped, _ => .bare
  | .single, c => if c = '\'' then .bare else .single
  | .double, c => if c = '"' then .bare else if c = '\\' then .doubleEscaped else .double
  | .doubleEscaped, _ => .double

/-- Quote removal, character by character: a backslash is held back until the
character after it is known, and an escaped newline joins two lines. -/
def remove : Mode → Char → Str
  | .bare, c => if c = '\\' || c = '\'' || c = '"' then [] else [c]
  | .escaped, c => if c = '\n' then [] else [c]
  | .single, c => if c = '\'' then [] else [c]
  | .double, c => if c = '"' || c = '\\' then [] else [c]
  | .doubleEscaped, c => if c = '\n' then [] else if isSpecial c then [c] else ['\\', c]

/-- Only the quotes are dropped. -/
def strip : Mode → Char → Str
  | .bare, c => if c = '\'' || c = '"' then [] else [c]
  | .single, c => if c = '\'' then [] else [c]
  | .double, c => if c = '"' then [] else [c]
  | .escaped, c | .doubleEscaped, c => [c]

/-- The steps at which a backslash is known to quote something. -/
def quotes : Mode → Char → Bool
  | .bare, c => c = '\\'
  | .doubleEscaped, c => isSpecial c
  | _, _ => false

def after (m : Mode) (s : Str) : Mode := s.foldl next m

def unquote (m : Mode) (s : Str) : Str := Machine.output next remove m s

def stripQuotes (m : Mode) (s : Str) : Str := Machine.output next strip m s

/-- Some backslash of the text quotes the character after it. -/
def hasEscape : Mode → Str → Bool
  | _, [] => false
  | m, c :: s => quotes m c || hasEscape (next m c) s

example : unquote .bare "r\\m\" \\$a\\b\"'\\'" = "rm $a\\b\\".toList := by decide

example : stripQuotes .bare "r\\m\" \\$a\\b\"'\\'" = "r\\m \\$a\\b\\".toList := by decide

/-! ## Texts end to end -/

variable {m : Mode} {s t : Str} {c : Char}

@[simp] theorem after_cons : after m (c :: s) = after (next m c) s := rfl

theorem after_append : after m (s ++ t) = after (after m s) t := foldl_append

theorem unquote_cons : unquote m (c :: s) = remove m c ++ unquote (next m c) s := rfl

theorem stripQuotes_cons : stripQuotes m (c :: s) = strip m c ++ stripQuotes (next m c) s := rfl

theorem stripQuotes_append :
    stripQuotes m (s ++ t) = stripQuotes m s ++ stripQuotes (after m s) t :=
  Machine.output_append next strip m s t

/-- A text with no quotes of its own: read in a mode it ends in that mode, and
there is no quote to drop. -/
structure Within (m : Mode) (s : Str) : Prop where
  strip : stripQuotes m s = s
  after : after m s = m

/-- A word whose reading ends outside quotes. -/
def Closed (s : Str) : Prop := after .bare s = .bare

theorem Closed.stripQuotes_append (hs : Closed s) :
    stripQuotes .bare (s ++ t) = stripQuotes .bare s ++ stripQuotes .bare t := by
  rw [Quoting.stripQuotes_append, hs]

theorem Closed.append (hs : Closed s) (ht : Closed t) : Closed (s ++ t) := by
  rw [Closed, after_append, hs, ht]

theorem stripQuotes_flatten {l : List Str} (h : ∀ s ∈ l, Closed s) :
    stripQuotes .bare l.flatten = (l.map (stripQuotes .bare)).flatten ∧ Closed l.flatten := by
  induction l with
  | nil => exact ⟨rfl, rfl⟩
  | cons s l ih =>
    have hs : Closed s := h s mem_cons_self
    obtain ⟨ihs, ihc⟩ := ih fun t ht => h t (mem_cons_of_mem s ht)
    rw [flatten_cons, map_cons, flatten_cons, hs.stripQuotes_append, ihs]
    exact ⟨rfl, hs.append ihc⟩

theorem stripQuotes_double (h : Within .double s) :
    stripQuotes .bare ('"' :: (s ++ ['"'])) = s ∧ Closed ('"' :: (s ++ ['"'])) := by
  constructor
  · change stripQuotes .double (s ++ ['"']) = s
    rw [stripQuotes_append, h.strip, h.after]
    exact append_nil s
  · change after .double (s ++ ['"']) = .bare
    rw [after_append, h.after]
    rfl

theorem stripQuotes_single (h : Within .single s) :
    stripQuotes .bare ('\'' :: (s ++ ['\''])) = s ∧ Closed ('\'' :: (s ++ ['\''])) := by
  constructor
  · change stripQuotes .single (s ++ ['\'']) = s
    rw [stripQuotes_append, h.strip, h.after]
    exact append_nil s
  · change after .single (s ++ ['\'']) = .bare
    rw [after_append, h.after]
    rfl

/-! ## Where the readings part -/

/-- The backslash that quote removal holds back in a mode. -/
def held : Mode → Str
  | .doubleEscaped => ['\\']
  | _ => []

/-- One step of quote removal, with what is held back, writes no more than one
step of stripping, and less where a backslash quotes. -/
theorem length_remove_le (m : Mode) (c : Char) :
    (remove m c).length + (held (next m c)).length + (quotes m c).toNat ≤
      (held m).length + (strip m c).length := by
  cases m <;> simp only [remove, next, quotes, strip, held, isSpecial] <;> grind

/-- Where no backslash quotes the two steps write the same. -/
theorem held_strip (hm : m ≠ .escaped) (hq : quotes m c = false) :
    held m ++ strip m c = remove m c ++ held (next m c) ∧ next m c ≠ .escaped := by
  cases m <;> simp_all only [remove, next, quotes, strip, held, isSpecial] <;> grind

theorem length_unquote_le (m : Mode) (s : Str) :
    (unquote m s).length + (held (after m s)).length + (hasEscape m s).toNat ≤
      (held m).length + (stripQuotes m s).length := by
  induction s generalizing m with
  | nil => simp [unquote, stripQuotes, after, hasEscape]
  | cons c s ih =>
    have hstep := length_remove_le m c
    have hrest := ih (next m c)
    have hor : (hasEscape m (c :: s)).toNat ≤
        (quotes m c).toNat + (hasEscape (next m c) s).toNat := by
      rw [hasEscape]
      cases quotes m c <;> simp
    rw [unquote_cons, stripQuotes_cons, after_cons, length_append, length_append]
    omega

theorem held_stripQuotes (hm : m ≠ .escaped) (h : hasEscape m s = false) :
    held m ++ stripQuotes m s = unquote m s ++ held (after m s) := by
  induction s generalizing m with
  | nil => simp [unquote, stripQuotes, after]
  | cons c s ih =>
    rw [hasEscape, Bool.or_eq_false_iff] at h
    obtain ⟨hstep, hnext⟩ := held_strip hm h.1
    calc held m ++ stripQuotes m (c :: s)
        = held m ++ strip m c ++ stripQuotes (next m c) s := by
          rw [stripQuotes_cons, append_assoc]
      _ = remove m c ++ (held (next m c) ++ stripQuotes (next m c) s) := by
          rw [hstep, append_assoc]
      _ = unquote m (c :: s) ++ held (after m (c :: s)) := by
          rw [ih hnext h.2, unquote_cons, after_cons, append_assoc]

/-- On a closed word the readings agree exactly when no backslash quotes. -/
theorem unquote_eq_stripQuotes_iff (h : Closed s) :
    unquote .bare s = stripQuotes .bare s ↔ hasEscape .bare s = false := by
  constructor
  · intro e
    have hle := length_unquote_le .bare s
    rw [e, h] at hle
    cases he : hasEscape .bare s with
    | false => rfl
    | true =>
      simp only [he, held, length_nil, Bool.toNat_true] at hle
      omega
  · intro he
    have heq := held_stripQuotes (by decide) he
    rw [h] at heq
    simpa [held] using heq.symm

end Quoting
