import SheriMl.Lib.Utf8Bytes

/-!
# Paths of a patch

`extract_paths_from_patch` of `utils/git/src/apply.rs`: the two paths of each `diff --git` header,
which are bare or quoted like strings of C.
-/

namespace SheriMl.GitApply

/-- The loop of `read_diff_git_token` for a token that is not quoted: what is read, and the text
that is left. -/
def readBare : Str → Str × Str
  | [] => ([], [])
  | c :: rest =>
    if Str.isWhitespace c then ([], rest)
    else
      let (out, left) := readBare rest
      (c :: out, left)

/-- The loop for a quoted token, which keeps its escapes. -/
def readQuoted (quote : Char) : Str → Str × Str
  | [] => ([], [])
  | c :: rest =>
    if c = quote then ([], rest)
    else if c = '\\' then
      match rest with
      | [] => (['\\'], [])
      | next :: rest =>
        let (out, left) := readQuoted quote rest
        ('\\' :: next :: out, left)
    else
      let (out, left) := readQuoted quote rest
      (c :: out, left)

/-! ## Escapes -/

def escaped : Char → Option Char
  | 'n' => some '\n'
  | 'r' => some '\r'
  | 't' => some '\t'
  | 'b' => some '\x08'
  | 'f' => some '\x0c'
  | 'a' => some '\x07'
  | 'v' => some '\x0b'
  | '\\' => some '\\'
  | '"' => some '"'
  | '\'' => some '\''
  | _ => none

def isOctalDigit (c : Char) : Bool := '0' ≤ c && c ≤ '7'

/-- `char::to_digit(8)` of such a digit. -/
def octalDigit (c : Char) : Nat := c.toNat - 48

/-- What an escape stands for, and the text after it. -/
def readEscape (next : Char) (rest : Str) : Str × Str :=
  match escaped next with
  | some c => ([c], rest)
  | none =>
    if isOctalDigit next then
      let digits := (rest.take 2).takeWhile isOctalDigit
      let value := digits.foldl (fun value digit => value * 8 + octalDigit digit) (octalDigit next)
      (if value.isValidChar then [Char.ofNat value] else [], rest.drop digits.length)
    else ([next], rest)

theorem length_readEscape_le (next : Char) (rest : Str) :
    (readEscape next rest).2.length ≤ rest.length := by
  rw [readEscape]
  split
  · exact Nat.le_refl _
  · split
    · exact (List.drop_sublist _ rest).length_le
    · exact Nat.le_refl _

def unescapeCString : Str → Str
  | [] => []
  | c :: rest =>
    if c = '\\' then
      match rest with
      | [] => ['\\']
      | next :: rest => (readEscape next rest).1 ++ unescapeCString (readEscape next rest).2
    else c :: unescapeCString rest
termination_by input => input.length
decreasing_by
  · have hle := length_readEscape_le next rest
    simp only [List.length_cons]
    omega
  · exact Nat.lt_succ_self _

def isQuote (c : Char) : Bool := c == '"' || c == '\''

/-- The next token, and the text after it. -/
def readDiffGitToken (chars : Str) : Option (Str × Str) :=
  match chars.dropWhile Str.isWhitespace with
  | [] => none
  | c :: rest =>
    if isQuote c then
      let (out, left) := readQuoted c rest
      some (unescapeCString out, left)
    else some (readBare (c :: rest))

/-! ## Headers -/

def parseDiffGitPaths (line : Str) : Option (Str × Str) := do
  let (first, chars) ← readDiffGitToken line
  let (second, _) ← readDiffGitToken chars
  some (first, second)

def normalizeDiffPath (raw pre : Str) : Option Str :=
  let trimmed := Str.trim raw
  if trimmed = [] then none
  else if trimmed = ("/dev/null" : Str) ∨ trimmed = pre ++ ("dev/null" : Str) then none
  else
    let trimmed := (Str.stripPrefix trimmed pre).getD trimmed
    if trimmed = [] then none else some trimmed

/-- `BTreeSet::insert`, on the strings of the set in their order. -/
def insertPath (path : Str) : List Str → List Str
  | [] => [path]
  | first :: paths =>
    if path = first then first :: paths
    else if path < first then path :: first :: paths
    else first :: insertPath path paths

def insertNormalized (paths : List Str) (raw pre : Str) : List Str :=
  match normalizeDiffPath raw pre with
  | some path => insertPath path paths
  | none => paths

def headerStart : Str := "diff --git "

/-- The loop body of `extract_paths_from_patch`. -/
def addLine (paths : List Str) (rawLine : Str) : List Str :=
  match (Str.stripPrefix (Str.trim rawLine) headerStart).bind parseDiffGitPaths with
  | some (a, b) => insertNormalized (insertNormalized paths a "a/") b "b/"
  | none => paths

def extractPathsFromPatch (diffText : Str) : List Str := (Str.lines diffText).foldl addLine []

end SheriMl.GitApply
