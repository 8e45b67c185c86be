import Mathlib.Data.Finset.Insert
import SheriMl.Lib.Keyed
import SheriMl.Lib.Utf8

/-!
# The names of MCP tools

`qualify_tools` of `core/src/mcp_connection_manager.rs`: the tools of a server under the
names the model calls them by. A name is the server's and the tool's, sanitized, and where
it is too long a beginning of it with the SHA-1 digest of the unsanitized one. The digest
is of another crate, here the function `sha1Hex`.

A tool whose name is taken is left out, and names are taken by other tools in more ways
than one (`Clash`): the digest that would tell them apart is only in the long names.
-/

namespace SheriMl.Mcp

open Keyed (file collect values)

def mcpToolNameDelimiter : Str := "__"

def maxToolNameLength : Nat := 64

variable {Tool : Type}

structure ToolInfo (Tool : Type) where
  serverName : Str
  toolName : Str
  tool : Tool
  connectorId : Option Str
  connectorName : Option Str

/-- `char::is_ascii_alphanumeric`. -/
def isAsciiAlphanumeric (c : Char) : Bool :=
  ('0' ≤ c && c ≤ '9') || ('A' ≤ c && c ≤ 'Z') || ('a' ≤ c && c ≤ 'z')

/-- What the names of tools are made of. -/
def isNameChar (c : Char) : Bool := isAsciiAlphanumeric c || c == '_' || c == '-'

def sanitizeResponsesApiToolName (name : Str) : Str :=
  let sanitized := name.map fun c => if isNameChar c then c else '_'
  if sanitized = [] then "_" else sanitized

/-- `qualified_name_raw`. -/
def qualifiedNameRaw (tool : ToolInfo Tool) : Str :=
  ("mcp" : Str) ++ mcpToolNameDelimiter ++ tool.serverName ++ mcpToolNameDelimiter ++ tool.toolName

/-- `qualified_name`. -/
def qualifiedName (sha1Hex : Str → Str) (raw : Str) : Str :=
  let name := sanitizeResponsesApiToolName raw
  if maxToolNameLength < Str.utf8Size name then
    let sha1Str := sha1Hex raw
    Str.takeBytes (maxToolNameLength - Str.utf8Size sha1Str) name ++ sha1Str
  else name

/-- The sets and the map of `qualify_tools`. -/
structure QualifyState (Tool : Type) where
  usedNames : Finset Str
  seenRawNames : Finset Str
  qualifiedTools : AList fun _ : Str => ToolInfo Tool

def qualifyTool (sha1Hex : Str → Str) (st : QualifyState Tool) (tool : ToolInfo Tool) :
    QualifyState Tool :=
  let raw := qualifiedNameRaw tool
  if raw ∈ st.seenRawNames then st
  else
    let st := { st with seenRawNames := insert raw st.seenRawNames }
    let name := qualifiedName sha1Hex raw
    if name ∈ st.usedNames then st
    else
      { st with
        usedNames := insert name st.usedNames
        qualifiedTools := st.qualifiedTools.insert name tool }

def qualifyTools (sha1Hex : Str → Str) (tools : List (ToolInfo Tool)) :
    AList fun _ : Str => ToolInfo Tool :=
  (tools.foldl (qualifyTool sha1Hex) ⟨∅, ∅, ∅⟩).qualifiedTools

/-! ## Names -/

def hexDigits : Str := "0123456789abcdef"

/-- The digests are forty hexadecimal digits. -/
def IsSha1Hex (sha1Hex : Str → Str) : Prop :=
  ∀ s, (sha1Hex s).length = 40 ∧ ∀ c ∈ sha1Hex s, c ∈ hexDigits

/-- The digests of the tools' names do not collide. -/
def NoCollision (sha1Hex : Str → Str) (tools : List (ToolInfo Tool)) : Prop :=
  ∀ tool ∈ tools, ∀ tool' ∈ tools,
    sha1Hex (qualifiedNameRaw tool) = sha1Hex (qualifiedNameRaw tool') →
      qualifiedNameRaw tool = qualifiedNameRaw tool'

def Fits (raw : Str) : Prop := (sanitizeResponsesApiToolName raw).length ≤ maxToolNameLength

instance : DecidablePred Fits := fun raw => by
  unfold Fits
  infer_instance

/-- The beginning of a long name and its digest. -/
def shortened (sha1Hex : Str → Str) (raw : Str) : Str :=
  (sanitizeResponsesApiToolName raw).take 24 ++ sha1Hex raw

/-- Two tools are in each other's way: one name before sanitizing, since the delimiter may be
in the servers' and tools' names; one name after it, where it is short enough to be kept; or
one tool's name is by chance the beginning and the digest of the other's. -/
def Clash (sha1Hex : Str → Str) (a b : Str) : Prop :=
  a = b ∨
  Fits a ∧ Fits b ∧ sanitizeResponsesApiToolName a = sanitizeResponsesApiToolName b ∨
  ¬ Fits a ∧ Fits b ∧ shortened sha1Hex a = sanitizeResponsesApiToolName b ∨
  Fits a ∧ ¬ Fits b ∧ sanitizeResponsesApiToolName a = shortened sha1Hex b

section Names

variable {sha1Hex : Str → Str} {c : Char} {raw a b : Str}

theorem isNameChar_underscore : isNameChar '_' = true := by decide

theorem utf8Size_of_isNameChar (h : isNameChar c = true) : c.utf8Size = 1 := by
  rw [Char.utf8Size_eq_one_iff]
  simp only [isNameChar, isAsciiAlphanumeric, Bool.or_eq_true, Bool.and_eq_true, beq_iff_eq,
    decide_eq_true_eq] at h
  rcases h with (((⟨-, h⟩ | ⟨-, h⟩) | ⟨-, h⟩) | rfl) | rfl
  · exact Nat.le_trans h (by decide)
  · exact Nat.le_trans h (by decide)
  · exact Nat.le_trans h (by decide)
  · decide
  · decide

theorem isNameChar_sanitize (h : c ∈ sanitizeResponsesApiToolName raw) : isNameChar c = true := by
  unfold sanitizeResponsesApiToolName at h
  dsimp only at h
  split at h
  · rw [List.mem_singleton.1 h]
    exact isNameChar_underscore
  · obtain ⟨d, -, rfl⟩ := List.mem_map.1 h
    split
    next hd => exact hd
    next => exact isNameChar_underscore

theorem utf8Size_sanitize (raw : Str) :
    Str.utf8Size (sanitizeResponsesApiToolName raw) = (sanitizeResponsesApiToolName raw).length :=
  Str.utf8Size_eq_length fun _ hc => utf8Size_of_isNameChar (isNameChar_sanitize hc)

theorem isNameChar_of_hex (h : c ∈ hexDigits) : isNameChar c = true := by
  have hall : hexDigits.all isNameChar = true := by decide
  exact List.all_eq_true.1 hall c h

theorem utf8Size_sha1Hex (h : IsSha1Hex sha1Hex) (raw : Str) :
    Str.utf8Size (sha1Hex raw) = 40 := by
  obtain ⟨hlength, hhex⟩ := h raw
  rw [← hlength]
  exact Str.utf8Size_eq_length fun c hc => utf8Size_of_isNameChar (isNameChar_of_hex (hhex c hc))

theorem qualifiedName_of_fits (h : Fits raw) :
    qualifiedName sha1Hex raw = sanitizeResponsesApiToolName raw := by
  unfold qualifiedName
  dsimp only
  rw [utf8Size_sanitize, if_neg (Nat.not_lt_of_le h)]

theorem qualifiedName_of_not_fits (hsha1 : IsSha1Hex sha1Hex) (h : ¬ Fits raw) :
    qualifiedName sha1Hex raw = shortened sha1Hex raw := by
  unfold qualifiedName shortened
  dsimp only
  rw [if_pos (by rw [utf8Size_sanitize]; exact Nat.lt_of_not_le h), utf8Size_sha1Hex hsha1,
    Str.takeBytes_eq_take fun c hc => utf8Size_of_isNameChar (isNameChar_sanitize hc)]
  rfl

theorem length_take_sanitize (h : ¬ Fits raw) :
    ((sanitizeResponsesApiToolName raw).take 24).length = 24 := by
  rw [List.length_take]
  unfold Fits maxToolNameLength at h
  omega

/-- Every name is short enough, and made of the characters allowed. -/
theorem qualifiedName_wellFormed (hsha1 : IsSha1Hex sha1Hex) (raw : Str) :
    (qualifiedName sha1Hex raw).length ≤ maxToolNameLength ∧
      ∀ c ∈ qualifiedName sha1Hex raw, isNameChar c = true := by
  by_cases h : Fits raw
  · rw [qualifiedName_of_fits h]
    exact ⟨h, fun c hc => isNameChar_sanitize hc⟩
  · rw [qualifiedName_of_not_fits hsha1 h, shortened]
    obtain ⟨hlength, hhex⟩ := hsha1 raw
    constructor
    · rw [List.length_append, length_take_sanitize h, hlength]
      exact Nat.le_refl _
    · intro c hc
      rcases List.mem_append.1 hc with hc | hc
      · exact isNameChar_sanitize (List.mem_of_mem_take hc)
      · exact isNameChar_of_hex (hhex c hc)

/-- Two names are one just for tools in each other's way. -/
theorem qualifiedName_eq_iff (hsha1 : IsSha1Hex sha1Hex)
    (hcollision : sha1Hex a = sha1Hex b → a = b) :
    qualifiedName sha1Hex a = qualifiedName sha1Hex b ↔ Clash sha1Hex a b := by
  unfold Clash
  by_cases ha : Fits a
  · by_cases hb : Fits b
    · rw [qualifiedName_of_fits ha, qualifiedName_of_fits hb]
      constructor
      · exact fun h => .inr (.inl ⟨ha, hb, h⟩)
      · rintro (rfl | ⟨-, -, h⟩ | ⟨hna, -⟩ | ⟨-, hnb, -⟩)
        · rfl
        · exact h
        · exact absurd ha hna
        · exact absurd hb hnb
    · rw [qualifiedName_of_fits ha, qualifiedName_of_not_fits hsha1 hb]
      constructor
      · exact fun h => .inr (.inr (.inr ⟨ha, hb, h⟩))
      · rintro (rfl | ⟨-, hb', -⟩ | ⟨hna, -⟩ | ⟨-, -, h⟩)
        · exact absurd ha hb
        · exact absurd hb' hb
        · exact absurd ha hna
        · exact h
  · by_cases hb : Fits b
    · rw [qualifiedName_of_not_fits hsha1 ha, qualifiedName_of_fits hb]
      constructor
      · exact fun h => .inr (.inr (.inl ⟨ha, hb, h⟩))
      · rintro (rfl | ⟨ha', -⟩ | ⟨-, -, h⟩ | ⟨ha', -⟩)
        · exact absurd hb ha
        · exact absurd ha' ha
        · exact h
        · exact absurd ha' ha
    · rw [qualifiedName_of_not_fits hsha1 ha, qualifiedName_of_not_fits hsha1 hb]
      constructor
      · intro h
        -- two long names are told apart by their digests
        have hlengths := (length_take_sanitize ha).trans (length_take_sanitize hb).symm
        exact .inl (hcollision (List.append_inj h hlengths).2)
      · rintro (rfl | ⟨ha', -⟩ | ⟨-, hb', -⟩ | ⟨ha', -⟩)
        · rfl
        · exact absurd ha' ha
        · exact absurd hb' hb
        · exact absurd ha' ha

end Names

/-! ## The map -/

section Map

variable {sha1Hex : Str → Str} {tools : List (ToolInfo Tool)} {st : QualifyState Tool}
  {tool : ToolInfo Tool}

/-- The used names are the keys, and a name seen before has its key. -/
structure QualifyState.WF (sha1Hex : Str → Str) (st : QualifyState Tool) : Prop where
  used : ∀ name, name ∈ st.usedNames ↔ name ∈ st.qualifiedTools
  seen : ∀ raw ∈ st.seenRawNames, qualifiedName sha1Hex raw ∈ st.qualifiedTools

theorem qualifyTool_spec (h : st.WF sha1Hex) (tool : ToolInfo Tool) :
    (qualifyTool sha1Hex st tool).WF sha1Hex ∧ (qualifyTool sha1Hex st tool).qualifiedTools =
      file (fun tool => qualifiedName sha1Hex (qualifiedNameRaw tool)) st.qualifiedTools tool := by
  have hraw : ∀ raw ∈ insert (qualifiedNameRaw tool) st.seenRawNames, raw = qualifiedNameRaw tool ∨
      qualifiedName sha1Hex raw ∈ st.qualifiedTools := fun raw hmem =>
    (Finset.mem_insert.1 hmem).imp_right (h.seen raw)
  unfold qualifyTool file
  dsimp only
  by_cases hseen : qualifiedNameRaw tool ∈ st.seenRawNames
  · rw [if_pos hseen, if_pos (h.seen _ hseen)]
    exact ⟨h, rfl⟩
  · rw [if_neg hseen]
    by_cases hname : qualifiedName sha1Hex (qualifiedNameRaw tool) ∈ st.qualifiedTools
    · rw [if_pos hname, if_pos ((h.used _).2 hname)]
      refine ⟨⟨h.used, fun raw hmem => ?_⟩, rfl⟩
      rcases hraw raw hmem with rfl | hmem
      · exact hname
      · exact hmem
    · rw [if_neg hname, if_neg fun hused => hname ((h.used _).1 hused)]
      refine ⟨⟨fun name => ?_, fun raw hmem => ?_⟩, rfl⟩
      · rw [Finset.mem_insert, AList.mem_insert, h.used]
      · rw [AList.mem_insert]
        exact (hraw raw hmem).imp_left fun heq => by rw [heq]

theorem foldl_qualifyTool (h : st.WF sha1Hex) :
    (tools.foldl (qualifyTool sha1Hex) st).qualifiedTools =
      tools.foldl (file fun tool => qualifiedName sha1Hex (qualifiedNameRaw tool))
        st.qualifiedTools := by
  induction tools generalizing st with
  | nil => rfl
  | cons tool tools ih =>
    obtain ⟨hwf, hfile⟩ := qualifyTool_spec h tool
    rw [List.foldl_cons, List.foldl_cons, ih hwf, hfile]

theorem qualifyTools_eq_collect (sha1Hex : Str → Str) (tools : List (ToolInfo Tool)) :
    qualifyTools sha1Hex tools =
      collect (fun tool => qualifiedName sha1Hex (qualifiedNameRaw tool)) tools := by
  refine foldl_qualifyTool ⟨fun name => ?_, fun raw hmem => ?_⟩
  · exact iff_of_false (Finset.notMem_empty name) (AList.notMem_empty name)
  · exact absurd hmem (Finset.notMem_empty raw)

/-- Every tool once, under names that differ, are short enough and are made of the characters
allowed. -/
structure Qualified (tools : List (ToolInfo Tool)) (m : AList fun _ : Str => ToolInfo Tool) :
    Prop where
  complete : (values m).Perm tools
  keys_nodup : m.keys.Nodup
  keys_wellFormed : ∀ name ∈ m, name.length ≤ maxToolNameLength ∧ ∀ c ∈ name, isNameChar c = true

/-- Every tool has a name of its own just where no two are in each other's way. -/
theorem qualified_iff (hsha1 : IsSha1Hex sha1Hex) (hcollision : NoCollision sha1Hex tools) :
    Qualified tools (qualifyTools sha1Hex tools) ↔ tools.Pairwise fun tool tool' =>
      ¬ Clash sha1Hex (qualifiedNameRaw tool) (qualifiedNameRaw tool') := by
  have hkeys : (tools.Pairwise fun tool tool' => qualifiedName sha1Hex (qualifiedNameRaw tool) ≠
        qualifiedName sha1Hex (qualifiedNameRaw tool')) ↔
      tools.Pairwise fun tool tool' =>
        ¬ Clash sha1Hex (qualifiedNameRaw tool) (qualifiedNameRaw tool') := by
    apply List.Pairwise.iff_of_mem
    intro tool tool' hmem hmem'
    exact not_congr (qualifiedName_eq_iff hsha1 (hcollision tool hmem tool' hmem'))
  rw [← hkeys, ← Keyed.perm_collect_iff, qualifyTools_eq_collect]
  refine ⟨fun h => h.complete, fun h => ⟨h, AList.keys_nodup _, fun name hname => ?_⟩⟩
  obtain ⟨tool, -, rfl⟩ := Keyed.exists_of_mem_collect hname
  exact qualifiedName_wellFormed hsha1 (qualifiedNameRaw tool)

def digestsOf (table : List (Str × Str)) (s : Str) : Str :=
  (table.lookup s).getD (List.replicate 40 '0')

theorem isSha1Hex_digestsOf {table : List (Str × Str)}
    (h : ∀ e ∈ table, e.2.length = 40 ∧ e.2.all fun c => List.contains hexDigits c) :
    IsSha1Hex (digestsOf table) := by
  intro s
  unfold digestsOf
  cases hlookup : table.lookup s with
  | none =>
    refine ⟨List.length_replicate, fun c hc => ?_⟩
    rw [Option.getD_none] at hc
    rw [List.eq_of_mem_replicate hc]
    decide
  | some digest =>
    obtain ⟨before, after, htable, -⟩ := List.lookup_eq_some_iff.1 hlookup
    obtain ⟨hlength, hall⟩ := h (s, digest) (by rw [htable]; simp)
    refine ⟨hlength, fun c hc => ?_⟩
    have hcontains := List.all_eq_true.1 hall c hc
    simpa using hcontains

def toolNamed (serverName toolName : Str) : ToolInfo Unit := ⟨serverName, toolName, (), none, none⟩

def serverDigests : Str → Str := digestsOf
  [("mcp__server1__tool1", "fa529f5435bd89d4e07932bbf3186816da8099c3"),
    ("mcp__server1__tool2", "f253a7fc33f998d9749ef75cb9e33b54751ff8a8"),
    ("mcp__s__foo.bar", "8150a61370c1e7d74ab39062c3bd2fe29495e799"),
    ("mcp__s__foo_bar", "74014cf415168a237827a283baa6259b72d93b88")]

theorem isSha1Hex_serverDigests : IsSha1Hex serverDigests := isSha1Hex_digestsOf (by decide)

theorem noCollision_pair {a b : ToolInfo Unit}
    (h : sha1Hex (qualifiedNameRaw a) ≠ sha1Hex (qualifiedNameRaw b)) :
    NoCollision sha1Hex [a, b] := by
  intro tool htool tool' htool' heq
  simp only [List.mem_cons, List.not_mem_nil, or_false] at htool htool'
  rcases htool with rfl | rfl
  · rcases htool' with rfl | rfl
    · rfl
    · exact absurd heq h
  · rcases htool' with rfl | rfl
    · exact absurd heq.symm h
    · rfl

/-- Two tools with two names. -/
theorem qualified_serverTools :
    Qualified [toolNamed "server1" "tool1", toolNamed "server1" "tool2"]
      (qualifyTools serverDigests [toolNamed "server1" "tool1", toolNamed "server1" "tool2"]) := by
  refine (qualified_iff isSha1Hex_serverDigests (noCollision_pair (by decide))).2 ?_
  rw [List.pairwise_pair]
  unfold Clash
  decide

/-- `foo.bar` and `foo_bar`: the second is left out. -/
theorem not_qualified_fooBar : IsSha1Hex serverDigests ∧
    NoCollision serverDigests [toolNamed "s" "foo.bar", toolNamed "s" "foo_bar"] ∧
    ¬ Qualified [toolNamed "s" "foo.bar", toolNamed "s" "foo_bar"]
      (qualifyTools serverDigests [toolNamed "s" "foo.bar", toolNamed "s" "foo_bar"]) := by
  refine ⟨isSha1Hex_serverDigests, noCollision_pair (by decide), fun h => ?_⟩
  exact absurd h.complete.length_eq (by decide)

end Map

end SheriMl.Mcp
