import SheriMl.Lib.Numeral
import SheriMl.Rollout.ThreadList

/-!
# The texts of times and UUIDs

RFC 3339 in UTC, the times of file names, and hyphenated UUIDs, as `Formats` that reading inverts;
and the names of rollout files, from which the time and the UUID are read back.
-/

namespace SheriMl.ThreadList

open Numeral

namespace OffsetDateTime

variable {t : OffsetDateTime} {ns : List Nat} {sep : Str} {nanosecond : Nat}

def fields (timeSep : Str) : List Field :=
  [⟨4, "-"⟩, ⟨2, "-"⟩, ⟨2, "T"⟩, ⟨2, timeSep⟩, ⟨2, timeSep⟩, ⟨2, []⟩]

def toFields (t : OffsetDateTime) : List Nat := [t.year, t.month, t.day, t.hour, t.minute, t.second]

def ofFields (ns : List Nat) (nanosecond : Nat) : Option OffsetDateTime :=
  match ns with
  | [year, month, day, hour, minute, second] =>
    if h : year < 10000 ∧ month < 13 ∧ day < 32 ∧ hour < 24 ∧ minute < 60 ∧ second < 60 ∧
        nanosecond < 1000000000 then
      some ⟨⟨year, h.1⟩, ⟨month, h.2.1⟩, ⟨day, h.2.2.1⟩, ⟨hour, h.2.2.2.1⟩, ⟨minute, h.2.2.2.2.1⟩,
        ⟨second, h.2.2.2.2.2.1⟩, ⟨nanosecond, h.2.2.2.2.2.2⟩⟩
    else none
  | _ => none

theorem ofFields_toFields (t : OffsetDateTime) : ofFields t.toFields t.nanosecond = some t :=
  dif_pos ⟨t.year.2, t.month.2, t.day.2, t.hour.2, t.minute.2, t.second.2, t.nanosecond.2⟩

theorem toFields_fit (t : OffsetDateTime) (timeSep : Str) :
    Fits 10 (fields timeSep) t.toFields := by
  have hmonth : t.month.val < 10 ^ 2 := by omega
  have hday : t.day.val < 10 ^ 2 := by omega
  have hhour : t.hour.val < 10 ^ 2 := by omega
  have hminute : t.minute.val < 10 ^ 2 := by omega
  have hsecond : t.second.val < 10 ^ 2 := by omega
  exact .cons t.year.2 <| .cons hmonth <| .cons hday <| .cons hhour <| .cons hminute <|
    .cons hsecond .nil

theorem readFields_fields (t : OffsetDateTime) (timeSep rest : Str) :
    readFields 10 (fields timeSep) (writeFields 10 (fields timeSep) t.toFields ++ rest) =
      some (t.toFields, rest) :=
  readFields_writeFields (by decide) (by decide) (toFields_fit t timeSep) rest

/-! ## RFC 3339 -/

def fraction (nanosecond : Nat) : Str :=
  if nanosecond = 0 then [] else '.' :: write 10 9 nanosecond

def formatRfc3339 (t : OffsetDateTime) : Str :=
  writeFields 10 (fields ":") t.toFields ++ (fraction t.nanosecond ++ ['Z'])

/-- The fraction of a second, to nine digits, and the offset. -/
def parseFraction (s : Str) : Option Nat :=
  if s = ['Z'] then some 0
  else (Str.stripPrefix s ".").bind fun rest =>
    (readFields 10 [⟨9, "Z"⟩] rest).bind fun read =>
      if read.2 = [] then read.1.head? else none

def parseRfc3339 (s : Str) : Option OffsetDateTime :=
  (readFields 10 (fields ":") s).bind fun read => (parseFraction read.2).bind (ofFields read.1)

theorem parseFraction_fraction (h : nanosecond < 1000000000) :
    parseFraction (fraction nanosecond ++ ['Z']) = some nanosecond := by
  by_cases hzero : nanosecond = 0
  · subst hzero
    rfl
  · have hfit : Fits 10 [⟨9, "Z"⟩] [nanosecond] := .cons h .nil
    have hread : readFields 10 [⟨9, "Z"⟩] (writeFields 10 [⟨9, "Z"⟩] [nanosecond] ++ []) =
        some ([nanosecond], []) := readFields_writeFields (by decide) (by decide) hfit []
    have htext : fraction nanosecond ++ ['Z'] = '.' :: writeFields 10 [⟨9, "Z"⟩] [nanosecond] := by
      simp [fraction, hzero, writeFields]
    have hstrip (s : Str) : Str.stripPrefix ('.' :: s) "." = some s :=
      Str.stripPrefix_eq_some.2 rfl
    rw [List.append_nil] at hread
    rw [parseFraction, htext, if_neg (by simp), hstrip, Option.bind_some, hread]
    rfl

theorem parseRfc3339_formatRfc3339 (t : OffsetDateTime) :
    parseRfc3339 (formatRfc3339 t) = some t := by
  rw [parseRfc3339, formatRfc3339, readFields_fields, Option.bind_some,
    parseFraction_fraction t.nanosecond.2, Option.bind_some, ofFields_toFields]

theorem bar_notMem_formatRfc3339 (t : OffsetDateTime) : '|' ∉ formatRfc3339 t := by
  have hdigit : ∀ d, '|' ≠ Nat.digitChar d := fun d => by simp
  intro hmem
  rcases List.mem_append.1 hmem with hfields | hrest
  · rcases mem_writeFields hfields with ⟨d, hd⟩ | ⟨field, hfield, hsep⟩
    · exact hdigit d hd
    · have hseps : ∀ field ∈ fields ":", '|' ∉ field.sep := by decide
      exact hseps field hfield hsep
  · rcases List.mem_append.1 hrest with hfraction | hz
    · unfold fraction at hfraction
      split at hfraction
      · cases hfraction
      · rcases List.mem_cons.1 hfraction with hdot | hdigits
        · exact absurd hdot (by decide)
        · obtain ⟨d, hd⟩ := mem_write hdigits
          exact hdigit d hd
    · exact absurd hz (by decide)

/-! ## File names -/

def formatFileTime (t : OffsetDateTime) : Str := writeFields 10 (fields "-") t.toFields

def parseFileTime (s : Str) : Option OffsetDateTime :=
  (readFields 10 (fields "-") s).bind fun read =>
    if read.2 = [] then ofFields read.1 0 else none

theorem parseFileTime_formatFileTime (h : t.nanosecond = 0) :
    parseFileTime (formatFileTime t) = some t := by
  have hread := readFields_fields t "-" []
  have hfields := ofFields_toFields t
  rw [h] at hfields
  rw [List.append_nil] at hread
  rw [parseFileTime, formatFileTime, hread, Option.bind_some, if_pos rfl]
  exact hfields

end OffsetDateTime

namespace Uuid

def fields : List Field := [⟨8, "-"⟩, ⟨4, "-"⟩, ⟨4, "-"⟩, ⟨4, "-"⟩, ⟨12, []⟩]

def toFields (id : Uuid) : List Nat :=
  [id / 16 ^ 24, id / 16 ^ 20 % 16 ^ 4, id / 16 ^ 16 % 16 ^ 4, id / 16 ^ 12 % 16 ^ 4, id % 16 ^ 12]

def ofFields (ns : List Nat) : Option Uuid :=
  match ns with
  | [a, b, c, d, e] =>
    let n := a * 16 ^ 24 + b * 16 ^ 20 + c * 16 ^ 16 + d * 16 ^ 12 + e
    if h : n < 2 ^ 128 then some ⟨n, h⟩ else none
  | _ => none

def format (id : Uuid) : Str := writeFields 16 fields (toFields id)

def parse (s : Str) : Option Uuid :=
  (readFields 16 fields s).bind fun read => if read.2 = [] then ofFields read.1 else none

theorem toFields_fit (id : Uuid) : Fits 16 fields (toFields id) := by
  have hid : id.val / 16 ^ 24 < 16 ^ 8 := by omega
  have hrest : ∀ n, n % 16 ^ 4 < 16 ^ 4 := fun n => Nat.mod_lt n (by decide)
  exact .cons hid <| .cons (hrest _) <| .cons (hrest _) <| .cons (hrest _) <|
    .cons (Nat.mod_lt _ (by decide)) .nil

theorem ofFields_toFields (id : Uuid) : ofFields (toFields id) = some id := by
  have hid := id.2
  have hsum : id.val / 16 ^ 24 * 16 ^ 24 + id.val / 16 ^ 20 % 16 ^ 4 * 16 ^ 20 +
      id.val / 16 ^ 16 % 16 ^ 4 * 16 ^ 16 + id.val / 16 ^ 12 % 16 ^ 4 * 16 ^ 12 +
        id.val % 16 ^ 12 = id.val := by omega
  simp only [ofFields, toFields, hsum, dif_pos hid]

theorem parse_format (id : Uuid) : parse (format id) = some id := by
  have hread := readFields_writeFields (by decide) (by decide) (toFields_fit id) []
  rw [List.append_nil] at hread
  rw [parse, format, hread, Option.bind_some, if_pos rfl, ofFields_toFields]

theorem length_of_parse {s : Str} {id : Uuid} (h : parse s = some id) : s.length = 36 := by
  obtain ⟨⟨ns, rest⟩, hread, hrest⟩ := Option.bind_eq_some_iff.1 h
  split at hrest
  · next hnil =>
    have hlength := length_of_readFields hread
    rw [show rest = [] from hnil] at hlength
    exact hlength
  · cases hrest

end Uuid

namespace Formats

/-- The texts of `time` and `uuid`. -/
def standard : Formats where
  formatRfc3339 t := some t.formatRfc3339
  parseRfc3339 := OffsetDateTime.parseRfc3339
  parseFileTime := OffsetDateTime.parseFileTime
  uuidToString := Uuid.format
  parseUuid := Uuid.parse

theorem standard_lawful : standard.Lawful where
  rfc3339 t := ⟨_, rfl, t.parseRfc3339_formatRfc3339, t.bar_notMem_formatRfc3339⟩
  uuid := Uuid.parse_format

end Formats

/-! ## Names of rollout files -/

section

variable {fmt : Formats} {t : OffsetDateTime} {id : Uuid} {time uuid : Str}

/-- The name of the file of a thread. -/
def rolloutName (time uuid : Str) : Str :=
  ("rollout-" : Str) ++ (time ++ '-' :: uuid ++ (".jsonl" : Str))

theorem startsWith_rolloutName (time uuid : Str) :
    Str.startsWith (rolloutName time uuid) "rollout-" = true :=
  Str.startsWith_iff.2 ⟨_, rfl⟩

theorem endsWith_rolloutName (time uuid : Str) :
    Str.endsWith (rolloutName time uuid) ".jsonl" = true :=
  Str.endsWith_iff.2 ⟨("rollout-" : Str) ++ (time ++ '-' :: uuid), (List.append_assoc ..).symm⟩

/-- A name is read back where nothing shorter than the UUID at its end is one: no later dash is
taken for the one before the UUID. -/
theorem parseTimestampUuidFromFilename_rolloutName (hid : fmt.parseUuid uuid = some id)
    (ht : fmt.parseFileTime time = some t)
    (hshort : ∀ s id', fmt.parseUuid s = some id' → uuid.length ≤ s.length) :
    parseTimestampUuidFromFilename fmt (rolloutName time uuid) = some (t, id) := by
  have hprefix : Str.stripPrefix (rolloutName time uuid) "rollout-" =
      some (time ++ '-' :: uuid ++ (".jsonl" : Str)) :=
    Str.stripPrefix_eq_some.2 rfl
  have hsuffix : Str.stripSuffix (time ++ '-' :: uuid ++ (".jsonl" : Str)) ".jsonl" =
      some (time ++ '-' :: uuid) := Str.stripSuffix_append _ _
  have hfind : (List.range (time ++ '-' :: uuid).length).reverse.findSome? (fun i =>
      if (time ++ '-' :: uuid)[i]? = some '-' then
        (fmt.parseUuid ((time ++ '-' :: uuid).drop (i + 1))).map fun u => (i, u)
      else none) = some (time.length, id) := by
    have hrange : (List.range (time ++ '-' :: uuid).length).reverse =
        (List.range' (time.length + 1) uuid.length).reverse ++
          time.length :: (List.range time.length).reverse := by
      have hlength : (time ++ '-' :: uuid).length = time.length + (1 + uuid.length) := by
        rw [List.length_append, List.length_cons, Nat.add_comm 1]
      rw [hlength, List.range_eq_range', List.range_eq_range', ← List.range'_append_1,
        ← List.range'_append_1]
      simp
    refine List.findSome?_eq_some_iff.2 ⟨_, _, _, hrange, ?_, ?_⟩
    · simp [hid]
    · intro i hi
      obtain ⟨hlow, _⟩ := List.mem_range'_1.1 (List.mem_reverse.1 hi)
      split
      · cases hparse : fmt.parseUuid ((time ++ '-' :: uuid).drop (i + 1)) with
        | none => rfl
        | some id' =>
          have hlength := hshort _ _ hparse
          rw [List.length_drop, List.length_append, List.length_cons] at hlength
          omega
      · rfl
  simp only [parseTimestampUuidFromFilename, hprefix, hsuffix, hfind, Option.bind_eq_bind,
    Option.bind_some, List.take_left', ht]

/-- The name of a thread's file in the standard texts. -/
def standardName (t : OffsetDateTime) (id : Uuid) : Str :=
  rolloutName t.formatFileTime (Uuid.format id)

theorem parse_standardName (h : t.nanosecond = 0) :
    parseTimestampUuidFromFilename .standard (standardName t id) = some (t, id) := by
  refine parseTimestampUuidFromFilename_rolloutName (Uuid.parse_format id)
    (OffsetDateTime.parseFileTime_formatFileTime h) ?_
  intro s id' hs
  rw [Uuid.length_of_parse (Uuid.parse_format id), Uuid.length_of_parse hs]

end

end SheriMl.ThreadList
