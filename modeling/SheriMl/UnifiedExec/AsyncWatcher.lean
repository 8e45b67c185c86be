import SheriMl.Lib.Utf8Bytes
import SheriMl.UnifiedExec.HeadTailBuffer

/-!
# Output deltas

`unified_exec/async_watcher.rs`: the bytes of a process, as they are read, become sequences for the
transcript and, up to a number of events, deltas. A sequence ends between characters where the
pending bytes allow it. But nothing is held back (`processChunk_pending`): a character that two
reads divide is given out by its bytes (`emitsText_iff`).
-/

namespace SheriMl.UnifiedExec

open Str (isUtf8)

def unifiedExecOutputDeltaMaxBytes : Nat := 8192

def maxExecOutputDeltasPerCall : Nat := 10000

/-- The loop of `split_valid_utf8_prefix_with_max`, from `split` downwards. -/
def findSplit (buffer : Bytes) (maxLen : Nat) : Nat → Option Nat
  | 0 => none
  | split + 1 =>
    if isUtf8 (buffer.take (split + 1)) then some (split + 1)
    else if 4 < maxLen - (split + 1) then none
    else findSplit buffer maxLen split

/-- The sequence that is split off, and what remains of the buffer. -/
def splitValidUtf8PrefixWithMax (buffer : Bytes) (maxBytes : Nat) : Option (Bytes × Bytes) :=
  if buffer.isEmpty then none
  else
    let maxLen := min buffer.length maxBytes
    match findSplit buffer maxLen maxLen with
    | some split => some (buffer.take split, buffer.drop split)
    | none => some (buffer.take 1, buffer.drop 1)

def splitValidUtf8Prefix (buffer : Bytes) : Option (Bytes × Bytes) :=
  splitValidUtf8PrefixWithMax buffer unifiedExecOutputDeltaMaxBytes

/-- What `process_chunk` works on, with the sequences and the events it has given out. -/
structure Watcher where
  pending : Bytes
  transcript : HeadTailBuffer
  emittedDeltas : Nat
  /-- the sequences pushed to the transcript -/
  emitted : List Bytes
  /-- the chunks of the events -/
  deltas : List Bytes

namespace Watcher

def new (transcript : HeadTailBuffer) : Watcher := ⟨[], transcript, 0, [], []⟩

/-- The body of the loop of `process_chunk`. -/
def emit (w : Watcher) (sequence rest : Bytes) : Watcher :=
  let w := { w with
    pending := rest
    transcript := w.transcript.pushChunk sequence
    emitted := w.emitted ++ [sequence] }
  if maxExecOutputDeltasPerCall ≤ w.emittedDeltas then w
  else { w with deltas := w.deltas ++ [sequence], emittedDeltas := w.emittedDeltas + 1 }

/-- The loop; each round takes a byte at least, so the number of bytes is fuel enough. -/
def drain : Nat → Watcher → Watcher
  | 0, w => w
  | fuel + 1, w =>
    match splitValidUtf8Prefix w.pending with
    | none => w
    | some (sequence, rest) => drain fuel (w.emit sequence rest)

def processChunk (w : Watcher) (chunk : Bytes) : Watcher :=
  drain (w.pending ++ chunk).length { w with pending := w.pending ++ chunk }

/-- The chunks of a process, one after the other. -/
def run (transcript : HeadTailBuffer) (chunks : List Bytes) : Watcher :=
  chunks.foldl processChunk (new transcript)

end Watcher

/-! ## One sequence -/

variable {buffer sequence rest chunk : Bytes} {split maxLen maxBytes fuel : Nat} {w : Watcher}

theorem findSplit_spec (h : findSplit buffer maxLen maxBytes = some split) :
    0 < split ∧ split ≤ maxBytes ∧ isUtf8 (buffer.take split) = true := by
  induction maxBytes with
  | zero => cases h
  | succ n ih =>
    rw [findSplit] at h
    split at h
    next hvalid =>
      cases h
      exact ⟨Nat.succ_pos n, Nat.le_refl _, hvalid⟩
    next =>
      split at h
      · cases h
      · obtain ⟨hpos, hle, hvalid⟩ := ih h
        exact ⟨hpos, Nat.le_succ_of_le hle, hvalid⟩

/-- A place that is near enough is not missed. -/
theorem findSplit_isSome {k : Nat} (hpos : 0 < k) (hle : k ≤ split) (hnear : maxLen ≤ k + 5)
    (hvalid : isUtf8 (buffer.take k) = true) : (findSplit buffer maxLen split).isSome = true := by
  induction split with
  | zero => omega
  | succ n ih =>
    rw [findSplit]
    split
    next => rfl
    next hinvalid =>
      have hlt : k ≤ n := by
        rcases Nat.lt_or_eq_of_le hle with hlt | rfl
        · exact Nat.le_of_lt_succ hlt
        · exact absurd hvalid hinvalid
      rw [if_neg (by omega)]
      exact ih hlt

theorem splitValidUtf8Prefix_eq_none : splitValidUtf8Prefix buffer = none ↔ buffer = [] := by
  unfold splitValidUtf8Prefix splitValidUtf8PrefixWithMax
  split
  next h => exact ⟨fun _ => List.isEmpty_iff.1 h, fun _ => rfl⟩
  next h =>
    have hne : buffer ≠ [] := fun hnil => h (List.isEmpty_iff.2 hnil)
    dsimp only
    split
    · exact ⟨nofun, fun hnil => absurd hnil hne⟩
    · exact ⟨nofun, fun hnil => absurd hnil hne⟩

/-- A sequence is the beginning of the buffer, not empty and not too long. -/
theorem splitValidUtf8Prefix_spec (h : splitValidUtf8Prefix buffer = some (sequence, rest)) :
    sequence ++ rest = buffer ∧ sequence ≠ [] ∧
      sequence.length ≤ unifiedExecOutputDeltaMaxBytes := by
  unfold splitValidUtf8Prefix splitValidUtf8PrefixWithMax at h
  split at h
  · cases h
  next hempty =>
    have hne : buffer ≠ [] := fun hnil => hempty (List.isEmpty_iff.2 hnil)
    have hlength := List.length_pos_of_ne_nil hne
    dsimp only at h
    split at h
    next hsplit =>
      cases h
      obtain ⟨hpos, hle, -⟩ := findSplit_spec hsplit
      refine ⟨List.take_append_drop .., List.ne_nil_of_length_pos ?_, ?_⟩
      · rw [List.length_take]
        omega
      · rw [List.length_take]
        omega
    next =>
      cases h
      refine ⟨List.take_append_drop .., List.ne_nil_of_length_pos ?_, ?_⟩
      · rw [List.length_take]
        omega
      · rw [List.length_take, unifiedExecOutputDeltaMaxBytes]
        omega

/-- Of a text, a text is split off. -/
theorem isUtf8_splitValidUtf8Prefix (h : splitValidUtf8Prefix buffer = some (sequence, rest))
    (hbuffer : isUtf8 buffer = true) : isUtf8 sequence = true ∧ isUtf8 rest = true := by
  have hjoin := (splitValidUtf8Prefix_spec h).1
  suffices hsequence : isUtf8 sequence = true by
    rw [← hjoin, Str.isUtf8_append hsequence] at hbuffer
    exact ⟨hsequence, hbuffer⟩
  unfold splitValidUtf8Prefix splitValidUtf8PrefixWithMax at h
  split at h
  · cases h
  next hempty =>
    have hlength := List.length_pos_of_ne_nil fun hnil => hempty (List.isEmpty_iff.2 hnil)
    dsimp only at h
    split at h
    next hsplit =>
      cases h
      exact (findSplit_spec hsplit).2.2
    next hnone =>
      obtain ⟨s, rfl⟩ := Str.exists_of_isUtf8 hbuffer
      have hs : s ≠ [] := by
        rintro rfl
        exact absurd rfl hempty
      obtain ⟨k, hpos, hle, hnear, hvalid⟩ := Str.exists_isUtf8_take
        (n := unifiedExecOutputDeltaMaxBytes) (by decide) hs
      have hroom : min (Str.asBytes s).length unifiedExecOutputDeltaMaxBytes ≤ k + 5 :=
        Nat.le_trans hnear (Nat.add_le_add_left (by decide) k)
      have hsome := findSplit_isSome hpos hle hroom hvalid
      rw [hnone] at hsome
      cases hsome

/-! ## The loop -/

namespace Watcher

@[simp] theorem emit_pending : (w.emit sequence rest).pending = rest := by
  unfold emit
  dsimp only
  split <;> rfl

@[simp] theorem emit_emitted : (w.emit sequence rest).emitted = w.emitted ++ [sequence] := by
  unfold emit
  dsimp only
  split <;> rfl

/-- What the loop gives out: the pending bytes, in sequences that are texts if those are one. -/
theorem drain_spec (hfuel : w.pending.length ≤ fuel) : (drain fuel w).pending = [] ∧
    ∃ sequences, (drain fuel w).emitted = w.emitted ++ sequences ∧
      sequences.flatten = w.pending ∧
      (∀ sequence ∈ sequences, sequence.length ≤ unifiedExecOutputDeltaMaxBytes) ∧
      (isUtf8 w.pending = true → ∀ sequence ∈ sequences, isUtf8 sequence = true) := by
  induction fuel generalizing w with
  | zero =>
    have hnil := List.length_eq_zero_iff.1 (Nat.le_zero.1 hfuel)
    exact ⟨hnil, [], (List.append_nil _).symm, hnil.symm, by simp, by simp⟩
  | succ fuel ih =>
    rw [drain]
    split
    next hnone =>
      have hnil := splitValidUtf8Prefix_eq_none.1 hnone
      exact ⟨hnil, [], (List.append_nil _).symm, hnil.symm, by simp, by simp⟩
    next sequence rest hsplit =>
      obtain ⟨hjoin, hne, hshort⟩ := splitValidUtf8Prefix_spec hsplit
      have hpos := List.length_pos_of_ne_nil hne
      have hlength := congrArg List.length hjoin
      rw [List.length_append] at hlength
      obtain ⟨hpending, sequences, hemitted, hflatten, hshorts, htexts⟩ :=
        ih (w := w.emit sequence rest) (by rw [emit_pending]; omega)
      rw [emit_pending] at hflatten htexts
      refine ⟨hpending, sequence :: sequences, ?_, ?_, ?_, fun hw => ?_⟩
      · rw [hemitted, emit_emitted, List.append_assoc, List.singleton_append]
      · rw [List.flatten_cons, hflatten, hjoin]
      · exact List.forall_mem_cons.2 ⟨hshort, hshorts⟩
      · obtain ⟨hsequence, hrest⟩ := isUtf8_splitValidUtf8Prefix hsplit hw
        exact List.forall_mem_cons.2 ⟨hsequence, htexts hrest⟩

/-- No byte is kept for the next chunk. -/
theorem processChunk_pending (w : Watcher) (chunk : Bytes) : (w.processChunk chunk).pending = [] :=
  (drain_spec (w := { w with pending := w.pending ++ chunk }) (Nat.le_refl _)).1

theorem processChunk_spec (hpending : w.pending = []) (chunk : Bytes) :
    ∃ sequences, (w.processChunk chunk).emitted = w.emitted ++ sequences ∧
      sequences.flatten = chunk ∧
      (∀ sequence ∈ sequences, sequence.length ≤ unifiedExecOutputDeltaMaxBytes) ∧
      (isUtf8 chunk = true → ∀ sequence ∈ sequences, isUtf8 sequence = true) := by
  have hjoin : w.pending ++ chunk = chunk := by rw [hpending, List.nil_append]
  obtain ⟨-, sequences, hemitted, hflatten, hshorts, htexts⟩ :=
    drain_spec (w := { w with pending := w.pending ++ chunk }) (Nat.le_refl _)
  dsimp only at hflatten htexts
  rw [hjoin] at hflatten htexts
  exact ⟨sequences, hemitted, hflatten, hshorts, htexts⟩

theorem foldl_processChunk_spec (hpending : w.pending = []) (chunks : List Bytes) :
    ∃ parts : List (List Bytes),
      (chunks.foldl processChunk w).emitted = w.emitted ++ parts.flatten ∧
      parts.map List.flatten = chunks ∧
      (∀ part ∈ parts, ∀ sequence ∈ part, sequence.length ≤ unifiedExecOutputDeltaMaxBytes) ∧
      ∀ part ∈ parts, isUtf8 part.flatten = true → ∀ sequence ∈ part, isUtf8 sequence = true := by
  induction chunks generalizing w with
  | nil => exact ⟨[], (List.append_nil _).symm, rfl, by simp, by simp⟩
  | cons chunk chunks ih =>
    obtain ⟨sequences, hemitted, rfl, hshorts, htexts⟩ := processChunk_spec hpending chunk
    obtain ⟨parts, hrest, rfl, hshort, htext⟩ := ih (processChunk_pending w sequences.flatten)
    refine ⟨sequences :: parts, ?_, rfl, List.forall_mem_cons.2 ⟨hshorts, hshort⟩,
      List.forall_mem_cons.2 ⟨htexts, htext⟩⟩
    rw [List.foldl_cons, hrest, hemitted, List.flatten_cons, List.append_assoc]

/-- The events are of the first sequences. -/
def Capped (w : Watcher) : Prop :=
  w.deltas = w.emitted.take maxExecOutputDeltasPerCall ∧
    w.emittedDeltas = min w.emitted.length maxExecOutputDeltasPerCall

theorem Capped.emit (h : w.Capped) (sequence rest : Bytes) : (w.emit sequence rest).Capped := by
  obtain ⟨hdeltas, hcount⟩ := h
  unfold Watcher.emit Capped
  dsimp only
  split
  next hfull =>
    have hle : maxExecOutputDeltasPerCall ≤ w.emitted.length := by omega
    refine ⟨?_, ?_⟩
    · rw [hdeltas, List.take_append_of_le_length hle]
    · rw [hcount, List.length_append, List.length_singleton]
      omega
  next hroom =>
    have hlt : w.emitted.length < maxExecOutputDeltasPerCall := by omega
    refine ⟨?_, ?_⟩
    · rw [hdeltas, List.take_of_length_le (Nat.le_of_lt hlt), List.take_of_length_le]
      rw [List.length_append, List.length_singleton]
      omega
    · dsimp only
      rw [hcount, List.length_append, List.length_singleton]
      omega

theorem Capped.drain (h : w.Capped) (fuel : Nat) : (drain fuel w).Capped := by
  induction fuel generalizing w with
  | zero => exact h
  | succ fuel ih =>
    rw [Watcher.drain]
    split
    · exact h
    · exact ih (h.emit ..)

theorem capped_run (transcript : HeadTailBuffer) (chunks : List Bytes) :
    (run transcript chunks).Capped := by
  have hfold {w : Watcher} (hw : w.Capped) : (chunks.foldl processChunk w).Capped := by
    induction chunks generalizing w with
    | nil => exact hw
    | cons chunk chunks ih =>
      refine ih ?_
      exact Capped.drain (w := { w with pending := w.pending ++ chunk }) hw _
  exact hfold ⟨rfl, rfl⟩

end Watcher

/-- What is given out for the chunks is the stream, in sequences of bounded length, each a text if
the stream is one. -/
structure EmitsText (transcript : HeadTailBuffer) (chunks : List Bytes) : Prop where
  flatten_eq : (Watcher.run transcript chunks).emitted.flatten = chunks.flatten
  length_le : ∀ sequence ∈ (Watcher.run transcript chunks).emitted,
    sequence.length ≤ unifiedExecOutputDeltaMaxBytes
  isUtf8 : isUtf8 chunks.flatten = true →
    ∀ sequence ∈ (Watcher.run transcript chunks).emitted, isUtf8 sequence = true

/-- All sequences but those of a divided character are as they should be; the events are the first
sequences. -/
theorem emitsText_iff (transcript : HeadTailBuffer) (chunks : List Bytes) :
    (EmitsText transcript chunks ↔
      (isUtf8 chunks.flatten = true → ∀ chunk ∈ chunks, isUtf8 chunk = true)) ∧
    (Watcher.run transcript chunks).deltas =
      (Watcher.run transcript chunks).emitted.take maxExecOutputDeltasPerCall := by
  refine ⟨?_, (Watcher.capped_run transcript chunks).1⟩
  obtain ⟨parts, hemitted, rfl, hshort, htext⟩ :=
    Watcher.foldl_processChunk_spec (w := Watcher.new transcript) rfl chunks
  replace hemitted : (Watcher.run transcript (parts.map List.flatten)).emitted = parts.flatten :=
    hemitted
  constructor
  · rintro ⟨-, -, htexts⟩ hstream chunk hchunk
    obtain ⟨part, hpart, rfl⟩ := List.mem_map.1 hchunk
    refine Str.isUtf8_flatten fun sequence hsequence => htexts hstream sequence ?_
    rw [hemitted]
    exact List.mem_flatten_of_mem hpart hsequence
  · intro hchunks
    refine ⟨?_, fun sequence hsequence => ?_, fun hstream sequence hsequence => ?_⟩
    · rw [hemitted, List.flatten_flatten]
    · rw [hemitted] at hsequence
      obtain ⟨part, hpart, hmem⟩ := List.mem_flatten.1 hsequence
      exact hshort part hpart sequence hmem
    · rw [hemitted] at hsequence
      obtain ⟨part, hpart, hmem⟩ := List.mem_flatten.1 hsequence
      exact htext part hpart (hchunks hstream _ (List.mem_map_of_mem hpart)) sequence hmem

/-- A character of two bytes that are read apart. -/
theorem not_emitsText_divided : isUtf8 [0xC3, 0xA9] = true ∧
    (Watcher.run (.new 1024) [[0xC3], [0xA9]]).deltas = [[0xC3], [0xA9]] ∧
    isUtf8 [0xC3] = false ∧ ¬ EmitsText (.new 1024) [[0xC3], [0xA9]] := by
  have htext : isUtf8 [0xC3, 0xA9] = true := by decide
  have hemitted : (Watcher.run (.new 1024) [[0xC3], [0xA9]]).emitted = [[0xC3], [0xA9]] := by
    decide
  have hdivided : isUtf8 [0xC3] = false := by decide
  refine ⟨htext, by decide, hdivided, fun h => ?_⟩
  have hall := h.isUtf8 htext [0xC3] (by rw [hemitted]; exact List.mem_cons_self)
  rw [hdivided] at hall
  cases hall

end SheriMl.UnifiedExec
