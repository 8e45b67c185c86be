import Mathlib.Data.List.DropRight
import SheriMl.ContextManager.Truncate

/-!
# The capped output buffer

`HeadTailBuffer` keeps the first half of its capacity and, for the rest, the newest
bytes, in deques of chunks. `Holds` says what it holds after the bytes `written` since
it was created or drained, and every operation keeps it; so what the buffer shows is a
function of the bytes alone, whatever the chunks were.

Counters are 64-bit and saturate. Only the count of omitted bytes can reach the limit.
-/

namespace SheriMl.UnifiedExec

open ContextManager (usizeMax)

abbrev Bytes := List UInt8

/-- `usize::saturating_add`. -/
def saturatingAdd (a b : Nat) : Nat := min (a + b) usizeMax

structure HeadTailBuffer where
  maxBytes : Nat
  headBudget : Nat
  tailBudget : Nat
  head : List Bytes
  tail : List Bytes
  headBytes : Nat
  tailBytes : Nat
  omittedBytes : Nat

namespace HeadTailBuffer

def new (maxBytes : UInt64) : HeadTailBuffer where
  maxBytes := maxBytes.toNat
  headBudget := maxBytes.toNat / 2
  tailBudget := maxBytes.toNat - maxBytes.toNat / 2
  head := []
  tail := []
  headBytes := 0
  tailBytes := 0
  omittedBytes := 0

def retainedBytes (b : HeadTailBuffer) : Nat := saturatingAdd b.headBytes b.tailBytes

/-- The loop of `trim_tail_to_budget`. -/
def trimTail : Nat → List Bytes → Nat → Nat → List Bytes × Nat × Nat
  | _, [], tailBytes, omittedBytes => ([], tailBytes, omittedBytes)
  | 0, tail, tailBytes, omittedBytes => (tail, tailBytes, omittedBytes)
  | excess, front :: rest, tailBytes, omittedBytes =>
    if front.length ≤ excess then
      trimTail (excess - front.length) rest (tailBytes - front.length)
        (saturatingAdd omittedBytes front.length)
    else (front.drop excess :: rest, tailBytes - excess, saturatingAdd omittedBytes excess)

def trimTailToBudget (b : HeadTailBuffer) : HeadTailBuffer :=
  let (tail, tailBytes, omittedBytes) :=
    trimTail (b.tailBytes - b.tailBudget) b.tail b.tailBytes b.omittedBytes
  { b with tail, tailBytes, omittedBytes }

def pushToTail (b : HeadTailBuffer) (chunk : Bytes) : HeadTailBuffer :=
  if b.tailBudget = 0 then
    { b with omittedBytes := saturatingAdd b.omittedBytes chunk.length }
  else if b.tailBudget ≤ chunk.length then
    let kept := chunk.drop (chunk.length - b.tailBudget)
    let dropped := chunk.length - kept.length
    { b with
      omittedBytes := saturatingAdd (saturatingAdd b.omittedBytes b.tailBytes) dropped
      tailBytes := kept.length
      tail := [kept] }
  else
    trimTailToBudget { b with
      tailBytes := saturatingAdd b.tailBytes chunk.length
      tail := b.tail ++ [chunk] }

def pushChunk (b : HeadTailBuffer) (chunk : Bytes) : HeadTailBuffer :=
  if b.maxBytes = 0 then
    { b with omittedBytes := saturatingAdd b.omittedBytes chunk.length }
  else if b.headBytes < b.headBudget then
    let remainingHead := b.headBudget - b.headBytes
    if chunk.length ≤ remainingHead then
      { b with
        headBytes := saturatingAdd b.headBytes chunk.length
        head := b.head ++ [chunk] }
    else
      let headPart := chunk.take remainingHead
      let tailPart := chunk.drop remainingHead
      let b' := if headPart = [] then b else
        { b with
          headBytes := saturatingAdd b.headBytes headPart.length
          head := b.head ++ [headPart] }
      b'.pushToTail tailPart
  else b.pushToTail chunk

def snapshotChunks (b : HeadTailBuffer) : List Bytes := b.head ++ b.tail

def toBytes (b : HeadTailBuffer) : Bytes := b.head.flatten ++ b.tail.flatten

/-- `drain_chunks`; it returns `snapshotChunks`. -/
def drainChunks (b : HeadTailBuffer) : HeadTailBuffer :=
  { b with head := [], tail := [], headBytes := 0, tailBytes := 0, omittedBytes := 0 }

end HeadTailBuffer

/-! ## The last bytes -/

section Suffix

variable (n : Nat) (bytes chunk : Bytes)

theorem length_rtake : (bytes.rtake n).length = min n bytes.length := by
  rw [List.rtake, List.length_drop]
  omega

theorem rtake_of_length_le (h : bytes.length ≤ n) : bytes.rtake n = bytes := by
  rw [List.rtake, Nat.sub_eq_zero_of_le h, List.drop_zero]

/-- What comes before `n` bytes does not matter for the last `n`. -/
theorem rtake_append_of_le_length (h : n ≤ chunk.length) :
    (bytes ++ chunk).rtake n = chunk.rtake n := by
  have hle : bytes.length ≤ (bytes ++ chunk).length - n := by
    rw [List.length_append]
    omega
  rw [List.rtake, List.drop_append, List.drop_eq_nil_of_le hle, List.nil_append, List.rtake,
    List.length_append]
  congr 1
  omega

/-- Of the last bytes and what follows them, the same bytes are last as of the whole. -/
theorem rtake_rtake_append : (bytes.rtake n ++ chunk).rtake n = (bytes ++ chunk).rtake n := by
  by_cases h : bytes.length ≤ n
  · rw [rtake_of_length_le n bytes h]
  · have hlen := length_rtake n bytes
    have hsplit : bytes ++ chunk =
        bytes.take (bytes.length - n) ++ (bytes.rtake n ++ chunk) := by
      rw [List.rtake, ← List.append_assoc, List.take_append_drop]
    have hle : n ≤ (bytes.rtake n ++ chunk).length := by
      rw [List.length_append]
      omega
    rw [hsplit, rtake_append_of_le_length n (bytes.take (bytes.length - n)) _ hle]

end Suffix

/-! ## What the buffer holds -/

/-- The tail after the bytes `passed` have gone past the head. -/
structure TailHolds (b : HeadTailBuffer) (passed : Bytes) : Prop where
  tail : b.tail.flatten = passed.rtake b.tailBudget
  tailBytes : b.tailBytes = b.tail.flatten.length
  omitted : b.omittedBytes = min (passed.length - b.tailBudget) usizeMax

/-- The bytes in the buffer after `written`. -/
structure Holds (limit : UInt64) (b : HeadTailBuffer) (written : Bytes) : Prop where
  maxBytes : b.maxBytes = limit.toNat
  headBudget : b.headBudget = limit.toNat / 2
  tailBudget : b.tailBudget = limit.toNat - limit.toNat / 2
  head : b.head.flatten = written.take b.headBudget
  headBytes : b.headBytes = b.head.flatten.length
  tailHolds : TailHolds b (written.drop b.headBudget)

theorem saturatingAdd_of_le {a b : Nat} (h : a + b ≤ usizeMax) : saturatingAdd a b = a + b :=
  Nat.min_eq_left h

/-- A count that saturates counts the same however it is added up. -/
theorem saturatingAdd_min (a b : Nat) :
    saturatingAdd (min a usizeMax) b = min (a + b) usizeMax := by
  unfold saturatingAdd
  omega

section Shown

variable {limit : UInt64} {b : HeadTailBuffer} {written : Bytes}

theorem Holds.headBudget_le (h : Holds limit b written) : b.headBudget ≤ usizeMax := by
  have hlimit := limit.toNat_lt
  have hmax : usizeMax = 2 ^ 64 - 1 := rfl
  rw [h.headBudget]
  omega

theorem Holds.tailBudget_le (h : Holds limit b written) : b.tailBudget ≤ 2 ^ 63 := by
  have hlimit := limit.toNat_lt
  rw [h.tailBudget]
  omega

theorem Holds.headBytes_eq (h : Holds limit b written) :
    b.headBytes = min b.headBudget written.length := by
  rw [h.headBytes, h.head, List.length_take]

theorem Holds.shown (h : Holds limit b written) :
    b.toBytes = written.take (min written.length (limit.toNat / 2)) ++
        written.drop (written.length - min (written.length - min written.length (limit.toNat / 2))
          (limit.toNat - limit.toNat / 2)) ∧
      b.retainedBytes = min written.length limit.toNat ∧
      b.omittedBytes = min (written.length - limit.toNat) usizeMax := by
  obtain ⟨htail, htailBytes, homitted⟩ := h.tailHolds
  have htailLen : b.tail.flatten.length =
      min (limit.toNat - limit.toNat / 2) (written.length - limit.toNat / 2) := by
    rw [htail, length_rtake, List.length_drop, h.tailBudget, h.headBudget]
  refine ⟨?_, ?_, ?_⟩
  · have hhead : written.take (limit.toNat / 2) =
        written.take (min written.length (limit.toNat / 2)) := by
      rw [Nat.min_comm, ← List.take_eq_take_min]
    have hlast : (written.drop (limit.toNat / 2)).rtake (limit.toNat - limit.toNat / 2) =
        written.drop (written.length - min (written.length - min written.length (limit.toNat / 2))
          (limit.toNat - limit.toNat / 2)) := by
      rw [List.rtake, List.drop_drop, List.length_drop]
      by_cases hle : written.length ≤ limit.toNat / 2
      · rw [List.drop_eq_nil_of_le (by omega), List.drop_eq_nil_of_le (by omega)]
      · congr 1
        omega
    rw [HeadTailBuffer.toBytes, h.head, htail, h.headBudget, h.tailBudget, hhead, hlast]
  · have hlimit := limit.toNat_lt
    have hmax : usizeMax = 2 ^ 64 - 1 := rfl
    rw [HeadTailBuffer.retainedBytes, h.headBytes_eq, htailBytes, htailLen, h.headBudget,
      saturatingAdd_of_le (by omega)]
    omega
  · rw [homitted, List.length_drop, h.headBudget, h.tailBudget]
    congr 1
    omega

end Shown

namespace HeadTailBuffer

variable {limit : UInt64} {b : HeadTailBuffer} {written passed : Bytes}

theorem holds_new (limit : UInt64) : Holds limit (new limit) [] := by
  refine ⟨rfl, rfl, rfl, ?_, rfl, ?_, rfl, ?_⟩ <;> simp [new]

theorem holds_drainChunks (h : Holds limit b written) : Holds limit b.drainChunks [] := by
  refine ⟨h.maxBytes, h.headBudget, h.tailBudget, ?_, rfl, ?_, rfl, ?_⟩ <;> simp [drainChunks]

/-- The loop drops as many bytes from the front as it is told to. -/
theorem trimTail_eq (tail : List Bytes) (excess omitted : Nat)
    (hexcess : excess ≤ tail.flatten.length) :
    ∃ tail', trimTail excess tail tail.flatten.length (min omitted usizeMax) =
        (tail', tail'.flatten.length, min (omitted + excess) usizeMax) ∧
      tail'.flatten = tail.flatten.drop excess := by
  induction tail generalizing excess omitted with
  | nil =>
    have hzero : excess = 0 := Nat.le_zero.1 hexcess
    subst hzero
    exact ⟨[], by simp [trimTail], rfl⟩
  | cons front rest ih =>
    cases excess with
    | zero => exact ⟨front :: rest, by simp [trimTail], by simp⟩
    | succ e =>
      rw [List.flatten_cons, List.length_append] at hexcess ⊢
      by_cases hfront : front.length ≤ e + 1
      · obtain ⟨tail', htrim, hdrop⟩ := ih (e + 1 - front.length) (omitted + front.length)
          (by omega)
        refine ⟨tail', ?_, ?_⟩
        · rw [trimTail, if_pos hfront, saturatingAdd_min, Nat.add_sub_cancel_left, htrim]
          · congr 3
            omega
          · exact fun h => Nat.succ_ne_zero e h
        · rw [hdrop, List.drop_append, List.drop_eq_nil_of_le hfront, List.nil_append]
      · refine ⟨front.drop (e + 1) :: rest, ?_, ?_⟩
        · rw [trimTail, if_neg hfront, saturatingAdd_min, List.flatten_cons, List.length_append,
            List.length_drop]
          · congr 2
            omega
          · exact fun h => Nat.succ_ne_zero e h
        · rw [List.drop_append_of_le_length (by omega), List.flatten_cons]

/-- The loop cuts a tail that is over its budget down to its last bytes. -/
theorem tailHolds_trimTailToBudget {omitted : Nat} (hbytes : b.tailBytes = b.tail.flatten.length)
    (homitted : b.omittedBytes = min omitted usizeMax) :
    b.trimTailToBudget.tail.flatten = b.tail.flatten.rtake b.tailBudget ∧
      b.trimTailToBudget.tailBytes = b.trimTailToBudget.tail.flatten.length ∧
      b.trimTailToBudget.omittedBytes =
        min (omitted + (b.tail.flatten.length - b.tailBudget)) usizeMax := by
  obtain ⟨tail', htrim, hdrop⟩ :=
    trimTail_eq b.tail (b.tail.flatten.length - b.tailBudget) omitted (Nat.sub_le _ _)
  unfold trimTailToBudget
  rw [hbytes, homitted, htrim]
  exact ⟨hdrop, rfl, rfl⟩

theorem tailHolds_pushToTail (h : TailHolds b passed) (hbudget : b.tailBudget ≤ 2 ^ 63)
    (chunk : Bytes) : TailHolds (b.pushToTail chunk) (passed ++ chunk) := by
  obtain ⟨htail, htailBytes, homitted⟩ := h
  have hlen : b.tail.flatten.length = min b.tailBudget passed.length := by
    rw [htail, length_rtake]
  unfold pushToTail
  split
  · next hzero =>
    refine ⟨?_, htailBytes, ?_⟩
    · rw [hzero, List.rtake_zero] at htail ⊢
      exact htail
    · rw [homitted, saturatingAdd_min, hzero, List.length_append]
      rfl
  split
  · next hlarge =>
    have hkept : (chunk.rtake b.tailBudget).length = b.tailBudget := by
      rw [length_rtake, Nat.min_eq_left hlarge]
    refine ⟨?_, ?_, ?_⟩
    · rw [List.flatten_singleton, rtake_append_of_le_length _ _ _ hlarge]
      rfl
    · rw [List.flatten_singleton]
    · change saturatingAdd (saturatingAdd b.omittedBytes b.tailBytes)
        (chunk.length - (chunk.rtake b.tailBudget).length) =
          min ((passed ++ chunk).length - b.tailBudget) usizeMax
      rw [homitted, saturatingAdd_min, saturatingAdd_min, htailBytes, hlen, hkept,
        List.length_append]
      congr 1
      omega
  · next hpos hsmall =>
    have hsum : saturatingAdd b.tailBytes chunk.length = (b.tail ++ [chunk]).flatten.length := by
      rw [List.flatten_append, List.flatten_singleton, List.length_append, htailBytes]
      refine saturatingAdd_of_le ?_
      have hmax : usizeMax = 2 ^ 64 - 1 := rfl
      omega
    obtain ⟨htail', htailBytes', homitted'⟩ := tailHolds_trimTailToBudget
      (b := { b with
        tailBytes := saturatingAdd b.tailBytes chunk.length, tail := b.tail ++ [chunk] })
      hsum homitted
    refine ⟨?_, htailBytes', ?_⟩
    · rw [htail', List.flatten_append, List.flatten_singleton, htail, rtake_rtake_append]
      rfl
    · refine homitted'.trans ?_
      change min (_ + ((b.tail ++ [chunk]).flatten.length - b.tailBudget)) _ =
        min ((passed ++ chunk).length - b.tailBudget) _
      rw [List.flatten_append, List.flatten_singleton, List.length_append, hlen,
        List.length_append]
      congr 1
      omega

theorem pushToTail_head (b : HeadTailBuffer) (chunk : Bytes) :
    (b.pushToTail chunk).head = b.head ∧ (b.pushToTail chunk).headBytes = b.headBytes ∧
      (b.pushToTail chunk).maxBytes = b.maxBytes ∧
      (b.pushToTail chunk).headBudget = b.headBudget ∧
      (b.pushToTail chunk).tailBudget = b.tailBudget := by
  unfold pushToTail
  split
  · exact ⟨rfl, rfl, rfl, rfl, rfl⟩
  split
  · exact ⟨rfl, rfl, rfl, rfl, rfl⟩
  · exact ⟨rfl, rfl, rfl, rfl, rfl⟩

theorem holds_pushHead (h : Holds limit b written) (part : Bytes)
    (hfit : written.length + part.length ≤ b.headBudget) :
    Holds limit { b with
      headBytes := saturatingAdd b.headBytes part.length, head := b.head ++ [part] }
      (written ++ part) := by
  have hshort : written.length ≤ b.headBudget := Nat.le_of_add_right_le hfit
  have hflatten : (b.head ++ [part]).flatten = written ++ part := by
    rw [List.flatten_append, List.flatten_singleton, h.head, List.take_of_length_le hshort]
  have hle : (written ++ part).length ≤ b.headBudget := by rwa [List.length_append]
  refine ⟨h.maxBytes, h.headBudget, h.tailBudget, ?_, ?_, ?_⟩
  · rw [hflatten]
    exact (List.take_of_length_le hle).symm
  · have hmax := h.headBudget_le
    have hheadBytes : b.headBytes = written.length := by
      rw [h.headBytes_eq, Nat.min_eq_right hshort]
    rw [hflatten, List.length_append, hheadBytes]
    exact saturatingAdd_of_le (hfit.trans hmax)
  · have htail := h.tailHolds
    rw [List.drop_eq_nil_of_le hshort] at htail
    rw [List.drop_eq_nil_of_le hle]
    exact ⟨htail.tail, htail.tailBytes, htail.omitted⟩

/-- What comes after a full head goes to the tail. -/
theorem holds_pushToTail (h : Holds limit b written) (hfull : b.headBudget ≤ written.length)
    (chunk : Bytes) : Holds limit (b.pushToTail chunk) (written ++ chunk) := by
  obtain ⟨hhead, hheadBytes, hmaxBytes, hheadBudget, htailBudget⟩ := pushToTail_head b chunk
  have htail := tailHolds_pushToTail h.tailHolds h.tailBudget_le chunk
  refine ⟨hmaxBytes.trans h.maxBytes, hheadBudget.trans h.headBudget,
    htailBudget.trans h.tailBudget, ?_, ?_, ?_⟩
  · rw [hhead, hheadBudget, List.take_append_of_le_length hfull, h.head]
  · rw [hheadBytes, hhead, h.headBytes]
  · rw [hheadBudget, List.drop_append_of_le_length hfull]
    exact htail

theorem holds_pushChunk (h : Holds limit b written) (chunk : Bytes) :
    Holds limit (b.pushChunk chunk) (written ++ chunk) := by
  have hheadBytes := h.headBytes_eq
  unfold pushChunk
  split
  · next hzero =>
    have hlimit : limit.toNat = 0 := h.maxBytes.symm.trans hzero
    have hhead : b.headBudget = 0 := by rw [h.headBudget, hlimit]
    have htail : b.tailBudget = 0 := by rw [h.tailBudget, hlimit]
    have hpush := holds_pushToTail h (hhead ▸ Nat.zero_le _) chunk
    rwa [pushToTail, if_pos htail] at hpush
  split
  · next hroom =>
    dsimp only
    split
    · next hfit => exact holds_pushHead h _ (by omega)
    · next hlong =>
      -- the head part fills the head, and the rest of the chunk goes to the tail
      have hpart : (chunk.take (b.headBudget - b.headBytes)).length =
          b.headBudget - b.headBytes := by
        rw [List.length_take]
        omega
      have hne : chunk.take (b.headBudget - b.headBytes) ≠ [] := by
        rw [← List.length_pos_iff, hpart]
        omega
      rw [if_neg hne]
      have hfilled := holds_pushHead h (chunk.take (b.headBudget - b.headBytes))
        (by omega)
      have hpush := holds_pushToTail hfilled (by simp only [List.length_append]; omega)
        (chunk.drop (b.headBudget - b.headBytes))
      rwa [List.append_assoc, List.take_append_drop] at hpush
  · next hfull => exact holds_pushToTail h (by omega) chunk

end HeadTailBuffer

/-! ## Runs -/

inductive Op
  | push (chunk : Bytes)
  | drain

def HeadTailBuffer.apply (b : HeadTailBuffer) : Op → HeadTailBuffer
  | .push chunk => b.pushChunk chunk
  | .drain => b.drainChunks

/-- The buffer after `ops`. -/
def runOps (limit : UInt64) (ops : List Op) : HeadTailBuffer :=
  ops.foldl HeadTailBuffer.apply (.new limit)

/-- The bytes pushed since the buffer was created or last drained. -/
def pushed (ops : List Op) : Bytes :=
  ops.foldl (fun written op => match op with
    | .push chunk => written ++ chunk
    | .drain => []) []

theorem holds_runOps (limit : UInt64) (ops : List Op) :
    Holds limit (runOps limit ops) (pushed ops) := by
  induction ops using List.reverseRecOn with
  | nil => exact HeadTailBuffer.holds_new limit
  | append_singleton ops op ih =>
    rw [runOps, pushed, List.foldl_concat, List.foldl_concat]
    cases op with
    | push chunk => exact HeadTailBuffer.holds_pushChunk ih chunk
    | drain => exact HeadTailBuffer.holds_drainChunks ih

/-- For every sequence of pushes and drains: the buffer shows the first half of its capacity
of what was pushed, and of the rest as many last bytes as fit; it keeps no more than its
capacity, and counts what it has left out, up to the largest number. -/
theorem toBytes_of_pushed (limit : UInt64) (ops : List Op) :
    let b := runOps limit ops
    let written := pushed ops
    let head := min written.length (limit.toNat / 2)
    let tail := min (written.length - head) (limit.toNat - limit.toNat / 2)
    b.toBytes = written.take head ++ written.drop (written.length - tail) ∧
      b.retainedBytes ≤ limit.toNat ∧
      b.omittedBytes = min (written.length - b.retainedBytes) usizeMax ∧
      ∀ ops', pushed ops' = written →
        (runOps limit ops').toBytes = b.toBytes ∧
        (runOps limit ops').retainedBytes = b.retainedBytes ∧
        (runOps limit ops').omittedBytes = b.omittedBytes := by
  obtain ⟨hbytes, hretained, homitted⟩ := (holds_runOps limit ops).shown
  refine ⟨hbytes, ?_, ?_, fun ops' hsame => ?_⟩
  · rw [hretained]
    exact Nat.min_le_right _ _
  · rw [homitted, hretained]
    congr 1
    omega
  · obtain ⟨hbytes', hretained', homitted'⟩ := (holds_runOps limit ops').shown
    rw [hsame] at hbytes' hretained' homitted'
    exact ⟨hbytes'.trans hbytes.symm, hretained'.trans hretained.symm,
      homitted'.trans homitted.symm⟩

/-- More bytes than a 64-bit number counts, pushed into a buffer that keeps none. -/
theorem omitted_saturates :
    ¬ ∀ (limit : UInt64) (ops : List Op),
      (runOps limit ops).retainedBytes + (runOps limit ops).omittedBytes =
        (pushed ops).length := by
  intro hall
  have h := hall 0 (List.replicate 3 (.push (List.replicate (2 ^ 63 - 1) 0)))
  obtain ⟨-, hretained, homitted⟩ :=
    (holds_runOps 0 (List.replicate 3 (.push (List.replicate (2 ^ 63 - 1) 0)))).shown
  have hlen : (pushed (List.replicate 3 (.push (List.replicate (2 ^ 63 - 1) 0)))).length =
      3 * (2 ^ 63 - 1) := by
    simp only [pushed, List.replicate, List.foldl_cons, List.foldl_nil, List.length_append,
      List.length_replicate, List.nil_append]
    omega
  rw [hretained, homitted, hlen] at h
  revert h
  decide

end SheriMl.UnifiedExec
