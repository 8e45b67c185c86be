import Mathlib.Data.List.Perm.Subperm
import SheriMl.Lib.Lines
import SheriMl.Lib.Queues

/-!
# Mentions in the message history

`tui/src/mention_codec.rs`: a message goes into the history as text, with each bound `$name` token
as a link to the path of its mention, and is read back from it.
-/

namespace SheriMl.MentionCodec

structure LinkedMention where
  mention : Str
  path : Str
  deriving DecidableEq

structure DecodedHistoryText where
  text : Str
  mentions : List LinkedMention
  deriving DecidableEq

/-! ## Names and paths -/

def isMentionNameChar (c : Char) : Bool :=
  ('a' ≤ c && c ≤ 'z') || ('A' ≤ c && c ≤ 'Z') || ('0' ≤ c && c ≤ '9') || c == '_' || c == '-'

/-- `u8::is_ascii_whitespace`. -/
def isAsciiWhitespace (c : Char) : Bool :=
  c == ' ' || c == '\t' || c == '\n' || c == '\x0c' || c == '\r'

/-- `char::to_ascii_uppercase`. -/
def asciiUpper (c : Char) : Char :=
  if 'a' ≤ c ∧ c ≤ 'z' then Char.ofNat (c.toNat - 32) else c

def commonEnvVars : List Str :=
  ["PATH", "HOME", "USER", "SHELL", "PWD", "TMPDIR", "TEMP", "TMP", "LANG", "TERM",
    "XDG_CONFIG_HOME"].map String.toList

def isCommonEnvVar (name : Str) : Bool := commonEnvVars.contains (name.map asciiUpper)

def isToolPath (path : Str) : Bool :=
  Str.startsWith path "app://" || Str.startsWith path "mcp://" || Str.startsWith path "skill://" ||
    -- the part after the last separator
    Str.toAsciiLowercase (path.rtakeWhile fun c => !(c == '/' || c == '\\')) ==
      Str.toAsciiLowercase "SKILL.md"

/-! ## Encoding -/

/-- The paths that are left for each name. -/
abbrev Queues := Str → List Str

def mentionsByName (mentions : List LinkedMention) : Queues :=
  Queues.ofList (mentions.map fun m => (m.mention, m.path))

/-- What is written for a bound token. -/
def link (m : LinkedMention) : Str := '[' :: '$' :: (m.mention ++ ']' :: '(' :: (m.path ++ [')']))

theorem length_dropWhile_lt {α : Type} (p : α → Bool) (a : α) (l : List α) :
    (l.dropWhile p).length < (a :: l).length := by
  have hle := (l.dropWhile_sublist p).length_le
  rw [List.length_cons]
  omega

/-- The paths that are left for the token that a text begins with, if it does. -/
def pathsAt (queues : Queues) (ch : Char) (rest : Str) : List Str :=
  if ch = '$' ∧ rest.takeWhile isMentionNameChar ≠ [] then
    queues (rest.takeWhile isMentionNameChar)
  else []

/-- The loop of `encode_history_mentions`, from the text that is left. -/
def encodeFrom (queues : Queues) : Str → Str
  | [] => []
  | ch :: rest =>
    match pathsAt queues ch rest with
    | path :: paths =>
      let name := rest.takeWhile isMentionNameChar
      link ⟨name, path⟩ ++
        encodeFrom (Function.update queues name paths) (rest.dropWhile isMentionNameChar)
    | [] => ch :: encodeFrom queues rest
termination_by text => text.length
decreasing_by
  · exact length_dropWhile_lt ..
  · exact Nat.lt_succ_self _

def encodeHistoryMentions (text : Str) (mentions : List LinkedMention) : Str :=
  if mentions = [] ∨ text = [] then text else encodeFrom (mentionsByName mentions) text

/-! ## Decoding -/

/-- The name and the path of the link that the text after a bracket is the rest of, and the text
after the link. -/
def parseLinkedToolMention (text : Str) : Option (Str × Str × Str) :=
  (Str.stripPrefix text "$").bind fun fromName =>
    let name := fromName.takeWhile isMentionNameChar
    if name = [] then none
    else
      (Str.stripPrefix (fromName.dropWhile isMentionNameChar) "]").bind fun afterName =>
        (Str.stripPrefix (afterName.dropWhile isAsciiWhitespace) "(").bind fun inside =>
          (Str.splitOnce ')' inside).bind fun (content, after) =>
            let path := Str.trim content
            if path = [] then none else some (name, path, after)

/-- The link to a tool at a character, which is none unless it is a bracket. -/
def toolLinkAt (ch : Char) (rest : Str) : Option (Str × Str × Str) :=
  if ch = '[' then
    (parseLinkedToolMention rest).filter fun (name, path, _) =>
      !isCommonEnvVar name && isToolPath path
  else none

theorem parseLinkedToolMention_eq_some {text name path after : Str} :
    parseLinkedToolMention text = some (name, path, after) ↔
      ∃ space content : Str,
        text = '$' :: (name ++ ']' :: (space ++ '(' :: (content ++ ')' :: after))) ∧
        name ≠ [] ∧ (∀ c ∈ name, isMentionNameChar c = true) ∧
        (∀ c ∈ space, isAsciiWhitespace c = true) ∧ ')' ∉ content ∧
        Str.trim content = path ∧ path ≠ [] := by
  constructor
  · intro hparse
    simp only [parseLinkedToolMention, Option.bind_eq_some_iff, Option.ite_none_left_eq_some,
      Option.some.injEq, Prod.mk.injEq, Prod.exists] at hparse
    obtain ⟨fromName, hdollar, hname, afterName, hbracket, inside, hparen, content, rest, hclose,
      hpath, rfl, rfl, rfl⟩ := hparse
    rw [Str.stripPrefix_eq_some] at hdollar hbracket hparen
    obtain ⟨hinside, hcontent⟩ := Str.splitOnce_eq_some.1 hclose
    refine ⟨afterName.takeWhile isAsciiWhitespace, content, ?_, hname, ?_, ?_, hcontent, rfl, hpath⟩
    · have hafter := List.takeWhile_append_dropWhile (p := isAsciiWhitespace) (l := afterName)
      have hfrom := List.takeWhile_append_dropWhile (p := isMentionNameChar) (l := fromName)
      rw [hparen, hinside] at hafter
      rw [hbracket, ← hafter] at hfrom
      rw [hdollar]
      exact congrArg ('$' :: ·) hfrom.symm
    · exact fun c hc => List.mem_takeWhile_imp hc
    · exact fun c hc => List.mem_takeWhile_imp hc
  · rintro ⟨space, content, rfl, hname, hchars, hspaces, hcontent, rfl, hpath⟩
    have hrun := Str.takeWhile_append_cons hchars (by decide : isMentionNameChar ']' = false)
    have hrest := Str.dropWhile_append_cons hchars (by decide : isMentionNameChar ']' = false)
    have hopen := Str.dropWhile_append_cons hspaces (by decide : isAsciiWhitespace '(' = false)
    have hclose : Str.splitOnce ')' (content ++ ')' :: after) = some (content, after) :=
      Str.splitOnce_eq_some.2 ⟨rfl, hcontent⟩
    have hdollar (r : Str) : Str.stripPrefix ('$' :: r) "$" = some r :=
      Str.stripPrefix_eq_some.2 rfl
    have hbracket (r : Str) : Str.stripPrefix (']' :: r) "]" = some r :=
      Str.stripPrefix_eq_some.2 rfl
    have hparen (r : Str) : Str.stripPrefix ('(' :: r) "(" = some r :=
      Str.stripPrefix_eq_some.2 rfl
    simp only [parseLinkedToolMention, hdollar, Option.bind_some, hrun, hrest, hbracket, hopen,
      hparen, hclose, if_neg hname, if_neg hpath]

theorem toolLinkAt_eq_some {ch : Char} {rest name path after : Str} :
    toolLinkAt ch rest = some (name, path, after) ↔
      ch = '[' ∧ parseLinkedToolMention rest = some (name, path, after) ∧
        isCommonEnvVar name = false ∧ isToolPath path = true := by
  by_cases hch : ch = '['
  · rw [toolLinkAt, if_pos hch]
    simp [hch]
  · rw [toolLinkAt, if_neg hch]
    simp [hch]

theorem length_after_lt {ch : Char} {rest name path after : Str}
    (h : toolLinkAt ch rest = some (name, path, after)) : after.length < (ch :: rest).length := by
  obtain ⟨space, content, htext, -⟩ :=
    parseLinkedToolMention_eq_some.1 (toolLinkAt_eq_some.1 h).2.1
  rw [htext]
  simp only [List.length_cons, List.length_append]
  omega

/-- The loop of `decode_history_mentions`, from the text that is left. -/
def decodeFrom : Str → DecodedHistoryText
  | [] => ⟨[], []⟩
  | ch :: rest =>
    match _ : toolLinkAt ch rest with
    | some (name, path, after) =>
      let decoded := decodeFrom after
      ⟨'$' :: (name ++ decoded.text), ⟨name, path⟩ :: decoded.mentions⟩
    | none =>
      let decoded := decodeFrom rest
      ⟨ch :: decoded.text, decoded.mentions⟩
termination_by text => text.length
decreasing_by
  · rename_i h
    exact length_after_lt h
  · exact Nat.lt_succ_self _

def decodeHistoryMentions (text : Str) : DecodedHistoryText := decodeFrom text

theorem decodeFrom_of_link {ch : Char} {rest name path after : Str}
    (h : toolLinkAt ch rest = some (name, path, after)) :
    decodeFrom (ch :: rest) =
      ⟨'$' :: (name ++ (decodeFrom after).text), ⟨name, path⟩ :: (decodeFrom after).mentions⟩ := by
  rw [decodeFrom]
  split
  · next name' path' after' h' =>
    rw [h] at h'
    cases h'
    rfl
  · next h' =>
    rw [h] at h'
    cases h'

theorem decodeFrom_of_none {ch : Char} {rest : Str} (h : toolLinkAt ch rest = none) :
    decodeFrom (ch :: rest) = ⟨ch :: (decodeFrom rest).text, (decodeFrom rest).mentions⟩ := by
  rw [decodeFrom]
  split
  · next h' =>
    rw [h] at h'
    cases h'
  · rfl

end SheriMl.MentionCodec
