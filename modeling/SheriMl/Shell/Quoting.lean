import Mathlib.Data.List.Pairwise
import SheriMl.Lib.Quoting
import SheriMl.Lib.Result
import SheriMl.Shell.Bash

/-!
# Quoting in word-only scripts

What the shell makes of the words of a word-only script, beside what
`try_parse_word_only_commands_sequence` reads. `WordOnly` says that a tree is one
tree-sitter-bash gives for such a script: the texts of bare words, quoted strings
and concatenations are spelled as their kinds say. The reader drops quotes and
keeps every backslash, so it reads what the shell runs on scripts that are
`SpelledOut` and on no others (`tryParse_eq_shellArgvs_iff`).
-/

namespace SheriMl.Shell

open Quoting

/-! ## Source order -/

namespace Node

mutual

/-- The nodes in source order, each before its descendants. -/
def preorder : Node → List Node
  | mk k n b t e cs => mk k n b t e cs :: preorderAll cs

def preorderAll : List Node → List Node
  | [] => []
  | c :: cs => preorder c ++ preorderAll cs

end

mutual

theorem walk_perm : (n : Node) → n.walk.Perm n.preorder
  | mk _ _ _ _ _ cs => by
    rw [walk, preorder]
    exact (walkAll_perm cs).cons _

theorem walkAll_perm : (cs : List Node) → (walkAll cs).Perm (preorderAll cs)
  | [] => List.Perm.refl _
  | c :: cs => by
    rw [walkAll, preorderAll]
    exact List.perm_append_comm.trans ((walk_perm c).append (walkAll_perm cs))

end

/-- The commands of a tree in source order. -/
def commands (root : Node) : List Node :=
  root.preorder.filter fun n => n.isNamed && n.kind = "command"

end Node

/-- The argument vector the shell runs for a command: its words after quote removal. -/
def shellArgv (cmd : Node) : List Str :=
  cmd.namedChildren.map fun w => unquote .bare w.text

def shellArgvs (root : Node) : List (List Str) := root.commands.map shellArgv

/-! ## Trees of word-only scripts -/

/-- A bare word or a quoted string, with the text its kind promises. -/
inductive IsPiece (n : Node) : Prop where
  | bare (hk : n.kind = "word" ∨ n.kind = "number") (ht : Within .bare n.text)
  | double (body : Str) (hk : n.kind = "string")
      (hc : ∀ c ∈ n.namedChildren, c.kind = "string_content")
      (ht : n.text = '"' :: (body ++ ['"'])) (hb : Within .double body)
  | single (body : Str) (hk : n.kind = "raw_string")
      (ht : n.text = '\'' :: (body ++ ['\''])) (hb : Within .single body)

/-- A word: one piece, or pieces written without a blank between them. -/
inductive IsWord (n : Node) : Prop where
  | piece (h : IsPiece n)
  | concatenation (hk : n.kind = "concatenation") (hp : ∀ p ∈ n.namedChildren, IsPiece p)
      (ht : n.text = (n.namedChildren.map Node.text).flatten)

/-- A named child of a command: an argument, or the name around its word. -/
inductive IsCommandWord (n : Node) : Prop where
  | name (hk : n.kind = "command_name") (w : Node) (hc : n.namedChildren = [w])
      (ht : n.text = w.text) (hw : IsWord w)
  | argument (h : IsWord n)

/-- The tree of a script of word-only commands, as tree-sitter-bash gives it. -/
structure WordOnly (root : Node) : Prop where
  noError : root.hasError = false
  allowed : ∀ n ∈ root.preorder, allowedNode n = true
  ordered : root.commands.Pairwise fun a b => a.startByte < b.startByte
  words : ∀ cmd ∈ root.commands, ∀ w ∈ cmd.namedChildren, IsCommandWord w

/-! ## Words the reader takes as the shell does -/

/-- The reader gives a script up at a command name that is not a bare word and at a
concatenation of empty quotes. -/
def isRead (w : Node) : Bool :=
  if w.kind = "command_name" then w.namedChildren.head?.any (·.kind = "word")
  else if w.kind = "concatenation" then !(stripQuotes .bare w.text).isEmpty
  else true

/-- A word that is read and in which no backslash quotes anything. -/
def spelledOut (w : Node) : Bool := isRead w && !hasEscape .bare w.text

/-- Every word of every command is spelled out. -/
def SpelledOut (root : Node) : Prop :=
  ∀ cmd ∈ root.commands, ∀ w ∈ cmd.namedChildren, spelledOut w = true

instance (root : Node) : Decidable (SpelledOut root) :=
  inferInstanceAs (Decidable (∀ cmd ∈ root.commands, ∀ w ∈ cmd.namedChildren, spelledOut w = true))

/-! ## What the reader returns -/

variable {n w root : Node} {body : Str}

theorem parseDoubleQuotedString_eq (hk : n.kind = "string")
    (hc : ∀ c ∈ n.namedChildren, c.kind = "string_content")
    (ht : n.text = '"' :: (body ++ ['"'])) : parseDoubleQuotedString n = some body := by
  have hstrip : Str.stripPrefix n.text ['"'] = some (body ++ ['"']) :=
    Str.stripPrefix_eq_some.2 ht
  have hall : n.namedChildren.all (·.kind = "string_content") = true := by
    simpa using hc
  simp [parseDoubleQuotedString, hk, hall, hstrip, Str.stripSuffix_append, guard]

theorem parseRawString_eq (hk : n.kind = "raw_string") (ht : n.text = '\'' :: (body ++ ['\''])) :
    parseRawString n = some body := by
  have hstrip : Str.stripPrefix n.text ['\''] = some (body ++ ['\'']) :=
    Str.stripPrefix_eq_some.2 ht
  simp [parseRawString, hk, hstrip, Str.stripSuffix_append, guard]

theorem IsPiece.read (h : IsPiece n) :
    parseConcatenationPart n = some (stripQuotes .bare n.text) ∧ Closed n.text := by
  cases h with
  | bare hk ht =>
    rw [ht.strip]
    refine ⟨?_, ht.after⟩
    rcases hk with hk | hk <;> simp [parseConcatenationPart, hk]
  | double body hk hc ht hb =>
    obtain ⟨hstrip, hclosed⟩ := stripQuotes_double hb
    rw [ht, hstrip]
    refine ⟨?_, hclosed⟩
    simp [parseConcatenationPart, hk, parseDoubleQuotedString_eq hk hc ht]
  | single body hk ht hb =>
    obtain ⟨hstrip, hclosed⟩ := stripQuotes_single hb
    rw [ht, hstrip]
    refine ⟨?_, hclosed⟩
    simp [parseConcatenationPart, hk, parseRawString_eq hk ht]

theorem IsPiece.parsePlainWord_eq (h : IsPiece n) :
    parsePlainWord n = parseConcatenationPart n ∧ isRead n = true := by
  cases h with
  | bare hk ht =>
    rcases hk with hk | hk <;> simp [parsePlainWord, parseConcatenationPart, isRead, hk]
  | double body hk hc ht hb | single body hk ht hb =>
    simp [parsePlainWord, parseConcatenationPart, isRead, hk]

theorem IsWord.closed (h : IsWord n) : Closed n.text := by
  cases h with
  | piece h => exact h.read.2
  | concatenation hk hp ht =>
    rw [ht]
    refine (stripQuotes_flatten ?_).2
    intro s hs
    obtain ⟨p, hmem, rfl⟩ := List.mem_map.1 hs
    exact (hp p hmem).read.2

theorem parseConcatenation_eq (hp : ∀ p ∈ n.namedChildren, IsPiece p)
    (ht : n.text = (n.namedChildren.map Node.text).flatten) :
    (n.namedChildren.mapM parseConcatenationPart).map List.flatten =
      some (stripQuotes .bare n.text) := by
  have hparts : n.namedChildren.mapM parseConcatenationPart =
      some (n.namedChildren.map fun p => stripQuotes .bare p.text) :=
    Result.mapM_eq_some_map_iff.2 fun p hmem => (hp p hmem).read.1
  have hclosed : ∀ s ∈ n.namedChildren.map Node.text, Closed s := by
    intro s hs
    obtain ⟨p, hmem, rfl⟩ := List.mem_map.1 hs
    exact (hp p hmem).read.2
  rw [hparts, ht, (stripQuotes_flatten hclosed).1, List.map_map]
  rfl

/-- A word of a correct tree is read without its quotes, or not at all. -/
theorem IsCommandWord.parsePlainWord_eq (h : IsCommandWord w) :
    parsePlainWord w = if isRead w then some (stripQuotes .bare w.text) else none := by
  cases h with
  | name hk v hc ht hw =>
    by_cases hv : v.kind = "word"
    · have hstrip : stripQuotes .bare v.text = v.text := by
        cases hw with
        | piece hp =>
          cases hp with
          | bare _ hwithin => exact hwithin.strip
          | double _ hk' => simp [hv] at hk'
          | single _ hk' => simp [hv] at hk'
        | concatenation hk' => simp [hv] at hk'
      simp [parsePlainWord, isRead, hk, hc, hv, ht, hstrip, guard]
    · simp [parsePlainWord, isRead, hk, hc, hv, guard]
  | argument hw =>
    cases hw with
    | piece hp =>
      obtain ⟨hplain, hread⟩ := hp.parsePlainWord_eq
      rw [hplain, hread, hp.read.1, if_pos rfl]
    | concatenation hk hp ht =>
      obtain ⟨parts, hparts, hflat⟩ := Option.map_eq_some_iff.1 (parseConcatenation_eq hp ht)
      have hword : parsePlainWord w = do
          guard !parts.flatten.isEmpty
          return parts.flatten := by
        simp only [parsePlainWord, hk, hparts]
        rfl
      rw [hword, hflat]
      cases he : (stripQuotes .bare w.text).isEmpty <;> simp [isRead, hk, he, guard]

theorem IsCommandWord.closed (h : IsCommandWord w) : Closed w.text := by
  cases h with
  | name hk v hc ht hw =>
    rw [ht]
    exact hw.closed
  | argument hw => exact hw.closed

/-- A word is read as the shell reads it exactly when it is spelled out. -/
theorem parsePlainWord_eq_unquote_iff (h : IsCommandWord w) :
    parsePlainWord w = some (unquote .bare w.text) ↔ spelledOut w = true := by
  rw [h.parsePlainWord_eq, spelledOut, Bool.and_eq_true, Bool.not_eq_true',
    ← unquote_eq_stripQuotes_iff h.closed]
  cases isRead w with
  | false => simp
  | true => simp [eq_comm]

/-- Sorted by where they start, the commands of a correct tree are in source order. -/
theorem insertionSort_eq_commands (h : WordOnly root) :
    (root.walk.filter fun n => n.isNamed && n.kind = "command").insertionSort
      (fun a b => a.startByte ≤ b.startByte) = root.commands := by
  have htotal : Std.Total fun a b : Node => a.startByte ≤ b.startByte :=
    ⟨fun a b => Nat.le_total a.startByte b.startByte⟩
  have htrans : IsTrans Node fun a b => a.startByte ≤ b.startByte :=
    ⟨fun _ _ _ hab hbc => Nat.le_trans hab hbc⟩
  have hperm : (root.walk.filter fun n => n.isNamed && n.kind = "command").Perm root.commands :=
    (Node.walk_perm root).filter _
  have hne : root.commands.Pairwise fun a b => a.startByte ≠ b.startByte :=
    h.ordered.imp fun hlt => Nat.ne_of_lt hlt
  refine List.Perm.eq_of_pairwise ?_ (List.pairwise_insertionSort _ _)
    (h.ordered.imp fun hlt => Nat.le_of_lt hlt) ((List.perm_insertionSort _ _).trans hperm)
  intro a b ha hb hab hba
  have ha' : a ∈ root.commands := hperm.subset ((List.perm_insertionSort _ _).subset ha)
  by_contra hneq
  have hsymm : Std.Symm fun x y : Node => x.startByte ≠ y.startByte := ⟨fun _ _ hxy => hxy.symm⟩
  exact hne.forall ha' hb hneq (Nat.le_antisymm hab hba)

/-- The reader meets the commands of a correct tree in source order. -/
theorem WordOnly.tryParse_eq (h : WordOnly root) :
    tryParseWordOnlyCommandsSequence root = root.commands.mapM parsePlainCommandFromNode := by
  have hall : root.walk.all allowedNode = true := by
    rw [List.all_eq_true]
    intro n hn
    exact h.allowed n ((Node.walk_perm root).subset hn)
  have hsort := insertionSort_eq_commands h
  simp [tryParseWordOnlyCommandsSequence, h.noError, hall, hsort, guard]

theorem isCommand_of_mem {cmd : Node} (h : cmd ∈ root.commands) : cmd.kind = "command" := by
  have hcmd := (List.mem_filter.1 h).2
  simp only [Bool.and_eq_true, decide_eq_true_eq] at hcmd
  exact hcmd.2

/-- The reader returns what the shell runs exactly on the scripts that are spelled out. -/
theorem WordOnly.tryParse_eq_shellArgvs_iff (h : WordOnly root) :
    tryParseWordOnlyCommandsSequence root = some (shellArgvs root) ↔ SpelledOut root := by
  rw [h.tryParse_eq, shellArgvs, Result.mapM_eq_some_map_iff]
  refine forall₂_congr fun cmd hcmd => ?_
  have hparse : parsePlainCommandFromNode cmd = cmd.namedChildren.mapM parsePlainWord := by
    simp [parsePlainCommandFromNode, isCommand_of_mem hcmd, guard]
  rw [hparse, shellArgv, Result.mapM_eq_some_map_iff]
  exact forall₂_congr fun w hw => parsePlainWord_eq_unquote_iff (h.words cmd hcmd w hw)

end SheriMl.Shell
