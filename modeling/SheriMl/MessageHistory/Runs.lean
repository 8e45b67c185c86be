import Mathlib.Logic.Function.Basic
import SheriMl.Lib.Transition
import SheriMl.MessageHistory.Limit

/-!
# Offsets in the message history

Any number of processes append to the file, each under its lock, and others look up what was at an
offset. As the file keeps its inode when it is trimmed, an offset tells an entry only as long as no
line is dropped (`stable_of_run`).
-/

namespace SheriMl.MessageHistory

open Pieces Transition

variable {π : Type} [DecidableEq π]

/-- A call of `append_entry` that has opened the file and waits for its lock. -/
structure Pending where
  line : List UInt8
  maxBytes : Option Nat

structure System (π : Type) where
  file : Option HistoryFile
  waiting : π → Option Pending

inductive Event (π : Type) where
  /-- A call; `ino` is the inode if the file is created. -/
  | call (process : π) (config : History) (entry : HistoryEntry) (ino : Nat)
  | write (process : π)
  /-- The lock could not be had. -/
  | giveUp (process : π)

/-- A call up to where it waits for the lock. -/
def appendEntry (json : EntryJson) (s : System π) (process : π) (config : History)
    (entry : HistoryEntry) (ino : Nat) : System π :=
  match config.persistence with
  | .none => s
  | .saveAll =>
    { file := some (s.file.getD ⟨ino, []⟩)
      waiting := Function.update s.waiting process
        (some ⟨Str.asBytes (json.toString entry ++ ['\n']), config.maxBytes⟩) }

def step (json : EntryJson) (s : System π) : Event π → Option (System π)
  | .call process config entry ino =>
    if s.waiting process = none then some (appendEntry json s process config entry ino) else none
  | .write process =>
    match s.waiting process, s.file with
    | some pending, some file =>
      some ⟨some (appendLocked pending.maxBytes pending.line file).2,
        Function.update s.waiting process none⟩
    | _, _ => none
  | .giveUp process =>
    (s.waiting process).map fun _ => ⟨s.file, Function.update s.waiting process none⟩

def Step (json : EntryJson) (s : System π) (event : Event π) (t : System π) : Prop :=
  step json s event = some t

/-- What was at the offsets that were handed out is still there, or nothing is. -/
def Stable (json : EntryJson) (s t : System π) : Prop :=
  ∀ offset < (historyMetadata s.file).2,
    lookup json t.file (historyMetadata s.file).1 offset =
        lookup json s.file (historyMetadata s.file).1 offset ∨
      lookup json t.file (historyMetadata s.file).1 offset = none

/-! ## Appends that drop nothing -/

/-- There is no cap, or the history is within it, or there is but one line, or one that is no
text. -/
def Keeps (maxBytes : Option Nat) (content : List UInt8) : Prop :=
  ∀ max ∈ maxBytes, max = 0 ∨ content.length ≤ max ∨ (pieces 10 content).length ≤ 1 ∨
    ∃ line ∈ pieces 10 content, Str.fromUtf8 line = none

/-- The write of a process does not drop any line. -/
def Event.Keeps (s : System π) : Event π → Prop
  | .write process => ∀ pending ∈ s.waiting process, ∀ file ∈ s.file,
      MessageHistory.Keeps pending.maxBytes (file.content ++ pending.line)
  | .call .. | .giveUp _ => True

structure KeepingStep (json : EntryJson) (s : System π) (event : Event π) (t : System π) :
    Prop where
  happens : Step json s event t
  keeps : event.Keeps s

section

variable {json : EntryJson} {maxBytes : Option Nat} {content line : List UInt8} {file : HistoryFile}

theorem lineLengths_of_invalid {line : List UInt8} (hline : line ∈ pieces 10 content)
    (hnone : Str.fromUtf8 line = none) : lineLengths content = .error .invalidData := by
  rw [lineLengths, if_neg]
  intro hall
  have hsome := List.all_eq_true.1 hall line hline
  rw [hnone] at hsome
  cases hsome

theorem enforceHistoryLimit_of_invalid {max : Nat} (hmax : max ≠ 0) (hover : max < content.length)
    {line : List UInt8} (hline : line ∈ pieces 10 content) (hnone : Str.fromUtf8 line = none) :
    enforceHistoryLimit (some max) content = .error .invalidData := by
  simp only [enforceHistoryLimit, if_neg hmax, if_neg (Nat.not_le.2 hover),
    lineLengths_of_invalid hline hnone]
  rfl

/-- Lines that are dropped are missing. -/
theorem flatten_drop_ne {k : Nat} (hpos : 0 < k) (hk : k < (pieces 10 content).length) :
    ((pieces 10 content).drop k).flatten ≠ content := by
  intro heq
  have hsplit : ((pieces 10 content).take k).flatten ++ ((pieces 10 content).drop k).flatten =
      content := by
    rw [← List.flatten_append, List.take_append_drop, flatten_pieces]
  rw [heq, List.append_left_eq_self, List.flatten_eq_nil_iff] at hsplit
  have hmem : (pieces 10 content)[0] ∈ (pieces 10 content).take k := by
    rw [List.mem_take_iff_getElem]
    exact ⟨0, by omega, rfl⟩
  exact ne_nil_of_mem_pieces (List.getElem_mem _) (hsplit _ hmem)

/-- A write drops no line exactly if the history is as `Keeps` says. -/
theorem content_appendLocked_eq_iff :
    (appendLocked maxBytes line file).2.content = file.content ++ line ↔
      Keeps maxBytes (file.content ++ line) := by
  generalize hcontent : file.content ++ line = content
  have happend : (appendLocked maxBytes line file).2.content =
      ((enforceHistoryLimit maxBytes content).toOption.getD content) := by
    rw [appendLocked, hcontent]
    cases enforceHistoryLimit maxBytes content <;> rfl
  rw [happend]
  cases maxBytes with
  | none => exact iff_of_true rfl (fun max hmax => by cases hmax)
  | some max =>
    have hkeeps : Keeps (some max) content ↔ max = 0 ∨ content.length ≤ max ∨
        (pieces 10 content).length ≤ 1 ∨ ∃ line ∈ pieces 10 content, Str.fromUtf8 line = none :=
      ⟨fun h => h max rfl, fun h max' hmax => by cases hmax; exact h⟩
    rw [hkeeps]
    by_cases hzero : max = 0
    · subst hzero
      exact iff_of_true rfl (.inl rfl)
    by_cases hover : max < content.length
    · by_cases hinvalid : ∃ line ∈ pieces 10 content, Str.fromUtf8 line = none
      · obtain ⟨line, hline, hnone⟩ := hinvalid
        rw [enforceHistoryLimit_of_invalid hzero hover hline hnone]
        exact iff_of_true rfl (.inr (.inr (.inr ⟨line, hline, hnone⟩)))
      · have hvalid : ∀ line ∈ pieces 10 content, (Str.fromUtf8 line).isSome = true := by
          intro line hline
          rw [← Option.ne_none_iff_isSome]
          exact fun hnone => hinvalid ⟨line, hline, hnone⟩
        obtain ⟨k, hk, hok, hfits, -⟩ :=
          enforceHistoryLimit_of_over hvalid (Nat.pos_of_ne_zero hzero) hover
        rw [hok]
        change ((pieces 10 content).drop k).flatten = content ↔ _
        rcases Nat.eq_zero_or_pos k with rfl | hpos
        · refine iff_of_true (flatten_pieces 10 content) (.inr (.inr (.inl ?_)))
          by_contra htwo
          have hnewest : newestLen content < content.length := by
            have hlong := newestLen_lt_length (k := 0) (Nat.not_le.1 htwo)
            rwa [List.drop_zero, flatten_pieces] at hlong
          rw [List.drop_zero, flatten_pieces] at hfits
          have htarget : trimTargetBytes _ (newestLen content) ≤ _ :=
            trimTargetBytes_le (Nat.pos_of_ne_zero hzero)
          omega
        · refine iff_of_false (flatten_drop_ne hpos hk) ?_
          rintro (h | h | h | h)
          · exact hzero h
          · omega
          · omega
          · exact hinvalid h
    · rw [enforceHistoryLimit_of_le (Nat.not_lt.1 hover)]
      exact iff_of_true rfl (.inr (.inl (Nat.not_lt.1 hover)))

theorem ino_appendLocked : (appendLocked maxBytes line file).2.ino = file.ino := by
  rw [appendLocked]
  cases enforceHistoryLimit maxBytes (file.content ++ line) <;> rfl

theorem appendLocked_of_keeps (h : Keeps maxBytes (file.content ++ line)) :
    (appendLocked maxBytes line file).2 = { file with content := file.content ++ line } := by
  have hino : (appendLocked maxBytes line file).2.ino = file.ino := ino_appendLocked
  have hcontent := content_appendLocked_eq_iff.2 h
  generalize (appendLocked maxBytes line file).2 = after at hino hcontent ⊢
  obtain ⟨ino, content⟩ := after
  rw [← hcontent, ← hino]

/-! ## Lookups -/

theorem lookupLines_congr {offset : Nat} {ls ls' : List (List UInt8)}
    (h : ls.take (offset + 1) = ls'.take (offset + 1)) :
    lookupLines json offset ls = lookupLines json offset ls' := by
  induction offset generalizing ls ls' with
  | zero =>
    cases ls with
    | nil =>
      cases ls' with
      | nil => rfl
      | cons l' ls' => cases h
    | cons l ls =>
      cases ls' with
      | nil => cases h
      | cons l' ls' =>
        cases h
        rfl
  | succ offset ih =>
    cases ls with
    | nil =>
      cases ls' with
      | nil => rfl
      | cons l' ls' => cases h
    | cons l ls =>
      cases ls' with
      | nil => cases h
      | cons l' ls' =>
        rw [List.take_succ_cons, List.take_succ_cons, List.cons.injEq] at h
        obtain ⟨rfl, h⟩ := h
        simp only [lookupLines, ih h]

theorem lookup_historyText {l : Str} {ls : List Str} (hlines : ∀ line ∈ l :: ls, '\n' ∉ line)
    (h : Str.endsWith l "\r" = false) (ino : Nat) :
    lookup json (some ⟨ino, historyText (l :: ls)⟩) ino 0 = json.fromStr l := by
  have hino : ¬(ino ≠ 0 ∧ ino ≠ ino) := fun hne => hne.2 rfl
  simp only [lookup, Option.bind_some, if_neg hino, pieces_historyText hlines, List.map_cons,
    lookupLines, Str.readLine_asBytes h]

theorem lookup_append {logId offset : Nat} (h : offset < file.content.count 10)
    (extra : List UInt8) :
    lookup json (some { file with content := file.content ++ extra }) logId offset =
      lookup json (some file) logId offset := by
  have hlines : lookupLines json offset (pieces 10 (file.content ++ extra)) =
      lookupLines json offset (pieces 10 file.content) :=
    lookupLines_congr (take_pieces_append (Nat.succ_le_of_lt h) extra)
  simp only [lookup, Option.bind_some, hlines]

end

/-! ## Runs -/

section

variable {json : EntryJson} {s t : System π}

/-- The file has what it had, and more after it. -/
def Grown (file : HistoryFile) (s : System π) : Prop :=
  ∃ extra, s.file = some { file with content := file.content ++ extra }

theorem KeepingStep.grown {file : HistoryFile} {event : Event π} (h : KeepingStep json s event t)
    (hs : Grown file s) : Grown file t := by
  obtain ⟨extra, hfile⟩ := hs
  have hstep : step json s event = some t := h.happens
  cases event with
  | call process config entry ino =>
    rw [step] at hstep
    split at hstep
    · cases hstep
      rw [appendEntry]
      cases config.persistence with
      | none => exact ⟨extra, hfile⟩
      | saveAll => exact ⟨extra, by rw [hfile, Option.getD_some]⟩
    · cases hstep
  | write process =>
    rw [step, hfile] at hstep
    cases hwaiting : s.waiting process with
    | none =>
      rw [hwaiting] at hstep
      cases hstep
    | some pending =>
      rw [hwaiting] at hstep
      cases hstep
      refine ⟨extra ++ pending.line, ?_⟩
      rw [appendLocked_of_keeps (h.keeps pending hwaiting _ hfile), List.append_assoc]
  | giveUp process =>
    obtain ⟨pending, -, rfl⟩ := Option.map_eq_some_iff.1 hstep
    exact ⟨extra, hfile⟩

/-- In a run whose writes drop no line, the offsets that were handed out stay as they are. -/
theorem stable_of_run {events : List (Event π)} (h : Run (KeepingStep json) s events t) :
    Stable json s t := by
  intro offset hoffset
  cases hfile : s.file with
  | none =>
    rw [hfile] at hoffset
    exact absurd hoffset (Nat.not_lt_zero offset)
  | some file =>
    have hgrown : Grown file s := ⟨[], by rw [hfile, List.append_nil]⟩
    obtain ⟨extra, ht⟩ := h.invariant (fun hs hstep => hstep.grown hs) hgrown
    rw [hfile] at hoffset
    rw [ht]
    exact .inl (lookup_append hoffset extra)

end

/-! ## A history that is trimmed -/

def firstEntry : HistoryEntry := ⟨"a", 1, "first"⟩

def secondEntry : HistoryEntry := ⟨"a", 2, "second"⟩

def firstLine : Str := "\x7b\"session_id\":\"a\",\"ts\":1,\"text\":\"first\"\x7d"

def secondLine : Str := "\x7b\"session_id\":\"a\",\"ts\":2,\"text\":\"second\"\x7d"

def twoEntriesJson : EntryJson where
  toString entry := if entry = firstEntry then firstLine else secondLine
  fromStr s :=
    if s = firstLine then some firstEntry else if s = secondLine then some secondEntry else none

def firstHistory : System Nat := ⟨some ⟨7, historyText [firstLine]⟩, fun _ => none⟩

def appendSecond (maxBytes : Option Nat) : List (Event Nat) :=
  [.call 0 ⟨.saveAll, maxBytes⟩ secondEntry 8, .write 0]

theorem notMem_lines : ∀ l ∈ [firstLine, secondLine], '\n' ∉ l := by decide

/-- Both entries take more than the cap, and one is dropped. -/
theorem enforceHistoryLimit_twoEntries :
    enforceHistoryLimit (some 60) (historyText [firstLine, secondLine]) =
      .ok (historyText [secondLine]) := by
  have hover : 60 < (historyText [firstLine, secondLine]).length := by decide
  obtain ⟨k, hk, hok, hfits, -⟩ := enforceHistoryLimit_of_over
    (isSome_fromUtf8_of_mem notMem_lines) (by decide) hover
  rw [flatten_drop_pieces notMem_lines] at hok hfits
  rw [length_pieces_historyText notMem_lines] at hk
  match k, hk with
  | 0, _ => exact absurd hfits (by decide)
  | 1, _ => exact hok

theorem appendLocked_secondLine :
    appendLocked (some 60) (Str.asBytes (secondLine ++ ['\n'])) ⟨7, historyText [firstLine]⟩ =
      (.ok (), ⟨7, historyText [secondLine]⟩) := by
  have hboth : historyText [firstLine] ++ Str.asBytes (secondLine ++ ['\n']) =
      historyText [firstLine, secondLine] := rfl
  rw [appendLocked]
  simp only [hboth, enforceHistoryLimit_twoEntries]

/-- The second entry is appended over a cap, and is found where the first one was. -/
theorem not_stable_secondEntry :
    ¬∀ (json : EntryJson) (s t : System Nat) (events : List (Event Nat)),
      Run (Step json) s events t → Stable json s t := by
  intro hall
  have hrun : ∃ t, Run (Step twoEntriesJson) firstHistory (appendSecond (some 60)) t ∧
      t.file = some ⟨7, historyText [secondLine]⟩ := by
    refine ⟨_, .cons rfl (.single rfl), ?_⟩
    exact congrArg (fun result => some result.2) appendLocked_secondLine
  obtain ⟨t, hrun, hfile⟩ := hrun
  have hstable := hall _ _ _ _ hrun 0 (by decide)
  have hbefore : lookup twoEntriesJson firstHistory.file (historyMetadata firstHistory.file).1 0 =
      some firstEntry := lookup_historyText (by decide) (by decide) 7
  have hafter : lookup twoEntriesJson t.file (historyMetadata firstHistory.file).1 0 =
      some secondEntry := by
    rw [hfile]
    exact lookup_historyText (by decide) (by decide) 7
  rw [hbefore, hafter] at hstable
  revert hstable
  decide

/-- Without a cap it is found after it. -/
theorem stable_of_run_uncapped :
    ∃ t, Run (KeepingStep twoEntriesJson) firstHistory (appendSecond none) t ∧
      Stable twoEntriesJson firstHistory t := by
  have hrun : Run (KeepingStep twoEntriesJson) firstHistory (appendSecond none) _ :=
    .cons ⟨rfl, trivial⟩ (.single ⟨rfl, by
      intro pending hpending file hfile max hmax
      cases hpending
      cases hmax⟩)
  exact ⟨_, hrun, stable_of_run hrun⟩

end SheriMl.MessageHistory
