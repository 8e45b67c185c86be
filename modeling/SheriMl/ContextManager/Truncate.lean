import SheriMl.Lib.Numeral
import SheriMl.Lib.Utf8
import SheriMl.Protocol.Models

/-!
# Truncation of output texts

`core/src/truncate.rs`: a text over its budget keeps a beginning and an end, with a
marker between them that counts what was removed. The marker is not part of the
budget, so a truncated text is over the budget again and `truncateText_idem_iff`
says when truncating it changes nothing: only where the marker counts what a marker
of its own length would.

Lengths and token budgets are unbounded: the source's arithmetic saturates only
beyond the length of any text.
-/

namespace SheriMl.ContextManager

open Protocol

def usizeMax : Nat := 2 ^ 64 - 1

inductive TruncationPolicy where
  | bytes (limit : Nat)
  | tokens (limit : Nat)

def approxTokenCount (text : Str) : Nat := (Str.utf8Size text + 3) / 4

def approxBytesForTokens (tokens : Nat) : Nat := tokens * 4

def approxTokensFromByteCount (bytes : Nat) : Nat := (bytes + 3) / 4

def TruncationPolicy.tokenBudget : TruncationPolicy → Nat
  | bytes limit => approxTokensFromByteCount limit
  | tokens limit => limit

def TruncationPolicy.byteBudget : TruncationPolicy → Nat
  | bytes limit => limit
  | tokens limit => approxBytesForTokens limit

/-- A number to 53 binary digits, ties to even: the digits and the power of two. -/
def roundToF64 (n : Nat) : Nat × Nat :=
  let shift := Nat.log2 n + 1 - 53
  let digits := n / 2 ^ shift
  let rest := n % 2 ^ shift
  if 2 ^ shift < 2 * rest ∨ (2 * rest = 2 ^ shift ∧ digits % 2 = 1) then (digits + 1, shift)
  else (digits, shift)

/-- `(n as f64 * 1.2).ceil() as usize`, where `1.2` is `5404319552844595 / 2 ^ 52`. -/
def timesOnePointTwo (n : Nat) : Nat :=
  let factor := roundToF64 n
  let product := roundToF64 (factor.1 * 5404319552844595)
  min ((product.1 * 2 ^ (factor.2 + product.2) + (2 ^ 52 - 1)) / 2 ^ 52) usizeMax

/-- `policy * 1.2`. -/
def TruncationPolicy.withSerializationBudget : TruncationPolicy → TruncationPolicy
  | bytes limit => bytes (timesOnePointTwo limit)
  | tokens limit => tokens (timesOnePointTwo limit)

example : timesOnePointTwo 10000 = 12000 ∧ timesOnePointTwo 3 = 4 ∧ timesOnePointTwo 0 = 0 := by
  decide

/-! ## Splitting -/

structure SplitState where
  prefixEnd : Nat
  suffixStart : Nat
  removedChars : Nat
  suffixStarted : Bool

/-- The loop of `split_string`, from a byte index on. -/
def splitLoop (beginningBytes tailStartTarget : Nat) : Nat → Str → SplitState → SplitState
  | _, [], state => state
  | idx, ch :: rest, state =>
    let charEnd := idx + ch.utf8Size
    if charEnd ≤ beginningBytes then
      splitLoop beginningBytes tailStartTarget charEnd rest { state with prefixEnd := charEnd }
    else if tailStartTarget ≤ idx then
      splitLoop beginningBytes tailStartTarget charEnd rest
        (if state.suffixStarted then state
          else { state with suffixStart := idx, suffixStarted := true })
    else
      splitLoop beginningBytes tailStartTarget charEnd rest
        { state with removedChars := state.removedChars + 1 }

/-- The characters removed, the beginning and the end. -/
def splitString (s : Str) (beginningBytes endBytes : Nat) : Nat × Str × Str :=
  if s = [] then (0, [], [])
  else
    let len := Str.utf8Size s
    let state := splitLoop beginningBytes (len - endBytes) 0 s ⟨0, len, 0, false⟩
    let suffixStart :=
      if state.suffixStart < state.prefixEnd then state.prefixEnd else state.suffixStart
    (state.removedChars, Str.takeBytes state.prefixEnd s, Str.dropBytes suffixStart s)

def formatTruncationMarker (policy : TruncationPolicy) (removedCount : Nat) : Str :=
  match policy with
  | .tokens _ => '…' :: Nat.toDigits 10 removedCount ++ (" tokens truncated…" : Str)
  | .bytes _ => '…' :: Nat.toDigits 10 removedCount ++ (" chars truncated…" : Str)

def splitBudget (budget : Nat) : Nat × Nat := (budget / 2, budget - budget / 2)

def removedUnitsForSource (policy : TruncationPolicy) (removedBytes removedChars : Nat) : Nat :=
  match policy with
  | .tokens _ => approxTokensFromByteCount removedBytes
  | .bytes _ => removedChars

def assembleTruncatedOutput (before after marker : Str) : Str := before ++ marker ++ after

def truncateWithByteEstimate (s : Str) (policy : TruncationPolicy) : Str :=
  if s = [] then []
  else
    let totalChars := s.length
    let maxBytes := policy.byteBudget
    if maxBytes = 0 then
      formatTruncationMarker policy (removedUnitsForSource policy (Str.utf8Size s) totalChars)
    else if Str.utf8Size s ≤ maxBytes then s
    else
      let totalBytes := Str.utf8Size s
      let (leftBudget, rightBudget) := splitBudget maxBytes
      let (removedChars, left, right) := splitString s leftBudget rightBudget
      assembleTruncatedOutput left right
        (formatTruncationMarker policy
          (removedUnitsForSource policy (totalBytes - maxBytes) removedChars))

/-- With the token count of the original where it was truncated. -/
def truncateWithTokenBudget (s : Str) (policy : TruncationPolicy) : Str × Option Nat :=
  if s = [] then ([], none)
  else
    let maxTokens := policy.tokenBudget
    if 0 < maxTokens ∧ Str.utf8Size s ≤ approxBytesForTokens maxTokens then (s, none)
    else
      let truncated := truncateWithByteEstimate s policy
      if truncated = s then (truncated, none) else (truncated, some (approxTokenCount s))

def truncateText (content : Str) (policy : TruncationPolicy) : Str :=
  match policy with
  | .bytes _ => truncateWithByteEstimate content policy
  | .tokens _ => (truncateWithTokenBudget content policy).1

example : truncateText "example output" (.bytes 4) = ("ex…10 chars truncated…ut" : Str) := by
  decide

section Split

variable {s left mid right : Str} {a b idx target : Nat} {state : SplitState}

/-- The characters that fit in the beginning. -/
theorem splitLoop_prefix (h : idx + Str.utf8Size left ≤ a) :
    splitLoop a target idx (left ++ s) state = splitLoop a target (idx + Str.utf8Size left) s
      { state with
        prefixEnd := if left = [] then state.prefixEnd else idx + Str.utf8Size left } := by
  induction left generalizing idx state with
  | nil => rfl
  | cons c left ih =>
    rw [Str.utf8Size_cons, ← Nat.add_assoc] at h
    rw [List.cons_append, splitLoop, if_pos (by omega), ih h, Str.utf8Size_cons, Nat.add_assoc,
      if_neg (List.cons_ne_nil c left)]
    cases left with
    | nil => rfl
    | cons d left => rw [if_neg (List.cons_ne_nil d left)]

/-- The characters before the tail that do not fit. -/
theorem splitLoop_middle (hfit : ∀ c rest, mid = c :: rest → a < idx + c.utf8Size)
    (htail : ∀ c rest, mid = rest ++ [c] → idx + Str.utf8Size rest < target) :
    splitLoop a target idx (mid ++ s) state = splitLoop a target (idx + Str.utf8Size mid) s
      { state with removedChars := state.removedChars + mid.length } := by
  induction mid generalizing idx state with
  | nil => rfl
  | cons c mid ih =>
    have hc := hfit c mid rfl
    have hbefore : idx < target := by
      obtain ⟨last, init, hlast⟩ : ∃ last init, c :: mid = init ++ [last] :=
        ⟨_, _, (List.dropLast_append_getLast (List.cons_ne_nil c mid)).symm⟩
      have hlt := htail last init hlast
      omega
    rw [List.cons_append, splitLoop, if_neg (by omega), if_neg (by omega), ih, Str.utf8Size_cons,
      Nat.add_assoc, List.length_cons, Nat.add_assoc, Nat.add_comm 1]
    · intro d rest hmid
      omega
    · intro d rest hmid
      have hlt := htail d (c :: rest) (by rw [hmid, List.cons_append])
      rw [Str.utf8Size_cons] at hlt
      omega

theorem splitLoop_tail (hfit : ∀ c rest, right = c :: rest → a < idx + c.utf8Size)
    (htarget : target ≤ idx) :
    splitLoop a target idx right state =
      if state.suffixStarted ∨ right = [] then state
      else { state with suffixStart := idx, suffixStarted := true } := by
  induction right generalizing idx state with
  | nil => simp [splitLoop]
  | cons c right ih =>
    have hc := hfit c right rfl
    rw [splitLoop, if_neg (by omega), if_pos htarget, ih (fun d rest _ => by omega) (by omega)]
    cases hstarted : state.suffixStarted with
    | false => simp
    | true => simp [hstarted]

theorem splitString_of_parts (h : Str.Parts a b left mid right) :
    splitString (left ++ mid ++ right) a b = (mid.length, left, right) := by
  have hright := h.right_le
  have hleft := h.left_le
  by_cases hne : left ++ mid ++ right = []
  · obtain ⟨hboth, rfl⟩ := List.append_eq_nil_iff.1 hne
    obtain ⟨rfl, rfl⟩ := List.append_eq_nil_iff.1 hboth
    rfl
  let target := Str.utf8Size (left ++ mid ++ right) - b
  have hlen : Str.utf8Size (left ++ mid ++ right) =
      Str.utf8Size left + Str.utf8Size mid + Str.utf8Size right := by
    rw [Str.utf8Size_append, Str.utf8Size_append]
  have hloop : splitLoop a target 0 (left ++ mid ++ right)
        ⟨0, Str.utf8Size (left ++ mid ++ right), 0, false⟩ =
      ⟨Str.utf8Size left, Str.utf8Size (left ++ mid), mid.length, !right.isEmpty⟩ := by
    rw [List.append_assoc, splitLoop_prefix (by omega), splitLoop_middle, splitLoop_tail]
    · cases left with
      | nil =>
        cases right with
        | nil => simp
        | cons e right => simp
      | cons e left =>
        cases right with
        | nil => simp
        | cons e right => simp [Nat.add_assoc]
    · intro e rest he
      cases mid with
      | nil =>
        have hnext := h.next e rest he
        rw [Str.utf8Size_nil]
        omega
      | cons d mid =>
        have hnext := h.next d (mid ++ right) rfl
        rw [Str.utf8Size_cons]
        omega
    · show Str.utf8Size (left ++ mid ++ right) - b ≤ _
      omega
    · intro e rest he
      have hnext := h.next e (rest ++ right) (by rw [he, List.cons_append])
      omega
    · intro e init he
      have hprev := h.prev e init he
      have hmid : Str.utf8Size mid = Str.utf8Size init + e.utf8Size := by
        rw [he, Str.utf8Size_append, Str.utf8Size_cons, Str.utf8Size_nil, Nat.add_zero]
      show _ < Str.utf8Size (left ++ mid ++ right) - b
      omega
  unfold splitString
  rw [if_neg hne]
  dsimp only
  rw [hloop]
  dsimp only
  rw [if_neg (by rw [Str.utf8Size_append]; omega), Str.dropBytes_boundary, List.append_assoc,
    Str.takeBytes_boundary]

/-- The longest beginning and, of the rest, the longest end that fit, and how many characters
are between them. -/
theorem splitString_spec (s : Str) (beginningBytes endBytes : Nat) :
    ∃ removed before middle after,
      splitString s beginningBytes endBytes = (removed, before, after) ∧
      s = before ++ middle ++ after ∧ removed = middle.length ∧
      (Str.utf8Size before ≤ beginningBytes ∧
        ∀ p, p <+: s → Str.utf8Size p ≤ beginningBytes → p <+: before) ∧
      Str.utf8Size after ≤ endBytes ∧
        ∀ q, q <:+ middle ++ after → Str.utf8Size q ≤ endBytes → q <:+ after := by
  obtain ⟨before, middle, after, rfl, hparts⟩ := Str.exists_parts beginningBytes endBytes s
  exact ⟨middle.length, before, middle, after, splitString_of_parts hparts, rfl, rfl,
    ⟨hparts.left_le, fun p => hparts.longest_left⟩, hparts.right_le, fun q => hparts.longest_right⟩

example : splitString "aéb" 2 2 = (1, ['a'], ['b']) := by decide

end Split

/-! ## Truncated texts -/

section Truncate

variable {s left mid right : Str} {policy : TruncationPolicy} {k k' : Nat}

theorem truncateText_eq : truncateText s policy = truncateWithByteEstimate s policy := by
  cases policy with
  | bytes limit => rfl
  | tokens limit =>
    show (truncateWithTokenBudget s (.tokens limit)).1 = _
    unfold truncateWithTokenBudget
    split
    next hnil => rw [hnil, truncateWithByteEstimate, if_pos rfl]
    next hnil =>
      dsimp only [TruncationPolicy.tokenBudget]
      split
      next hfits =>
        have hpos : approxBytesForTokens limit ≠ 0 := by
          simp only [approxBytesForTokens]
          omega
        rw [truncateWithByteEstimate, if_neg hnil]
        dsimp only [TruncationPolicy.byteBudget]
        rw [if_neg hpos, if_pos hfits.2]
      · split
        next htruncated => rfl
        · rfl

/-- What fits stays. -/
theorem truncateText_of_le (h : Str.utf8Size s ≤ policy.byteBudget) :
    truncateText s policy = s := by
  rw [truncateText_eq, truncateWithByteEstimate]
  split
  next hnil => exact hnil.symm
  next hnil =>
    have hpos := Str.utf8Size_pos hnil
    dsimp only
    rw [if_neg (by omega), if_pos h]

/-- What does not fit keeps the ends of its cut. -/
theorem truncateText_of_cut
    (h : Str.Cut (policy.byteBudget / 2) (policy.byteBudget - policy.byteBudget / 2) left mid right)
    (hlt : policy.byteBudget < Str.utf8Size (left ++ mid ++ right)) :
    truncateText (left ++ mid ++ right) policy = left ++ formatTruncationMarker policy
        (removedUnitsForSource policy
          (Str.utf8Size (left ++ mid ++ right) - policy.byteBudget) mid.length) ++ right := by
  rw [truncateText_eq, truncateWithByteEstimate]
  have hne : left ++ mid ++ right ≠ [] := by
    intro hnil
    rw [hnil] at hlt
    exact absurd hlt (Nat.not_lt_zero _)
  rw [if_neg hne]
  dsimp only [splitBudget]
  split
  next hzero =>
    -- no end fits in an empty budget
    rw [hzero] at h ⊢
    have hleft : left = [] := by
      by_contra hne
      have hpos := Str.utf8Size_pos hne
      have hle := h.left_le
      omega
    have hright : right = [] := by
      by_contra hne
      have hpos := Str.utf8Size_pos hne
      have hle := h.right_le
      omega
    rw [hleft, hright, Nat.sub_zero, List.nil_append, List.append_nil, List.nil_append,
      List.append_nil]
  · rw [if_neg (by omega), splitString_of_parts h.parts, assembleTruncatedOutput]

end Truncate

/-! ## The marker -/

def markerUnit : TruncationPolicy → Str
  | .tokens _ => " tokens truncated"
  | .bytes _ => " chars truncated"

section Marker

variable {policy : TruncationPolicy} {k k' n kept chars : Nat}

theorem utf8Size_ellipsis : '…'.utf8Size = 3 := rfl

theorem formatTruncationMarker_eq : formatTruncationMarker policy k =
    '…' :: (Nat.toDigits 10 k ++ (markerUnit policy ++ ['…'])) := by
  cases policy with
  | bytes limit => rfl
  | tokens limit => rfl

/-- The marker tells what was counted. -/
theorem formatTruncationMarker_inj
    (h : formatTruncationMarker policy k = formatTruncationMarker policy k') : k = k' := by
  rw [formatTruncationMarker_eq, formatTruncationMarker_eq] at h
  have hdigits := List.append_cancel_right (List.cons.inj h).2
  exact Decimal.toDigits_inj hdigits

/-- Its first character after the ellipsis is another one. -/
theorem exists_digit (k : Nat) : ∃ c rest, Nat.toDigits 10 k = c :: rest ∧ c.isDigit = true := by
  cases hdigits : Nat.toDigits 10 k with
  | nil => exact absurd hdigits Nat.toDigits_ne_nil
  | cons c rest =>
    refine ⟨c, rest, rfl, ?_⟩
    apply Nat.isDigit_of_mem_toDigits (b := 10) (n := k) (by decide) (by decide)
    rw [hdigits]
    exact List.mem_cons_self

theorem utf8Size_of_isDigit {c : Char} (h : c.isDigit = true) : c.utf8Size = 1 := by
  rw [Char.utf8Size_eq_one_iff]
  simp only [Char.isDigit, Bool.and_eq_true, decide_eq_true_eq] at h
  exact Nat.le_trans h.2 (by decide)

theorem length_formatTruncationMarker (policy : TruncationPolicy) (k : Nat) :
    (formatTruncationMarker policy k).length =
      (Nat.toDigits 10 k).length + (markerUnit policy).length + 2 := by
  rw [formatTruncationMarker_eq]
  simp only [List.length_cons, List.length_append, List.length_nil]
  omega

theorem utf8Size_formatTruncationMarker (policy : TruncationPolicy) (k : Nat) :
    Str.utf8Size (formatTruncationMarker policy k) =
      (Nat.toDigits 10 k).length + (markerUnit policy).length + 6 := by
  have hellipsis := utf8Size_ellipsis
  have hdigits : Str.utf8Size (Nat.toDigits 10 k) = (Nat.toDigits 10 k).length := by
    apply Str.utf8Size_eq_length
    intro c hc
    exact utf8Size_of_isDigit (Nat.isDigit_of_mem_toDigits (by decide) (by decide) hc)
  have hunit : Str.utf8Size (markerUnit policy) = (markerUnit policy).length := by
    cases policy with
    | bytes limit => rfl
    | tokens limit => rfl
  rw [formatTruncationMarker_eq]
  simp only [Str.utf8Size_cons, Str.utf8Size_append, Str.utf8Size_nil, hellipsis, hdigits, hunit]
  omega

theorem length_toDigits_le (hk : 0 < k) : (Nat.toDigits 10 k).length ≤ k :=
  (Nat.length_toDigits_le_iff (by decide) hk).2 (Nat.lt_pow_self (by decide))

theorem length_toDigits_of_lt_ten (hk : k < 10) : (Nat.toDigits 10 k).length = 1 := by
  rw [Nat.toDigits_of_lt_base hk]
  rfl

/-- 20 alone is 18 more than its number of digits. -/
theorem length_toDigits_add_eq : (Nat.toDigits 10 k).length + 18 = k ↔ k = 20 := by
  constructor
  · intro h
    by_cases hk : k < 100
    · have hle : (Nat.toDigits 10 k).length ≤ 2 :=
        (Nat.length_toDigits_le_iff (by decide) (by decide)).2 hk
      have hpos : ¬ (Nat.toDigits 10 k).length ≤ 1 := by
        rw [Nat.length_toDigits_le_iff (by decide) (by decide)]
        omega
      omega
    · -- from 100 on there are fewer digits than that
      obtain ⟨j, rfl⟩ : ∃ j, k = j + 20 := ⟨k - 20, by omega⟩
      have hlt : j < 10 ^ j := Nat.lt_pow_self (by decide)
      have hle : (Nat.toDigits 10 (j + 20)).length ≤ j + 1 := by
        rw [Nat.length_toDigits_le_iff (by decide) (by omega), Nat.pow_succ]
        omega
      omega
  · rintro rfl
    decide

/-- The units removed are those that the marker for them would be counted as, if it were removed
beside these bytes kept. -/
def KeepsCount (policy : TruncationPolicy) (kept removedBytes removedChars : Nat) : Prop :=
  match policy with
  | .bytes _ => removedChars = 20
  | .tokens _ =>
    if kept + 4 = policy.byteBudget then 16 < removedBytes ∧ removedBytes ≤ 20
    else 20 < removedBytes ∧ removedBytes ≤ 24

theorem recount_iff (hle : kept ≤ policy.byteBudget) (hge : policy.byteBudget ≤ kept + 4)
    (hk : k = removedUnitsForSource policy n chars) :
    removedUnitsForSource policy
        (kept + Str.utf8Size (formatTruncationMarker policy k) - policy.byteBudget)
        (formatTruncationMarker policy k).length = k ↔ KeepsCount policy kept n chars := by
  cases policy with
  | bytes limit =>
    obtain rfl : k = chars := hk
    have hunit : (markerUnit (.bytes limit)).length = 16 := rfl
    simp only [removedUnitsForSource, KeepsCount, length_formatTruncationMarker, hunit]
    exact length_toDigits_add_eq
  | tokens limit =>
    have hunit : (markerUnit (.tokens limit)).length = 17 := rfl
    simp only [removedUnitsForSource, approxTokensFromByteCount] at hk
    simp only [removedUnitsForSource, KeepsCount, utf8Size_formatTruncationMarker, hunit,
      approxTokensFromByteCount]
    by_cases hten : k < 10
    · rw [length_toDigits_of_lt_ten hten]
      split
      · omega
      · omega
    · -- a count of two digits or more is more than the marker is counted as
      have hlen := length_toDigits_le (k := k) (by omega)
      refine iff_of_false ?_ ?_
      · omega
      · split
        · omega
        · omega

end Marker

/-! ## Truncating again -/

/-- The text fits, or its ends fill their halves of the budget but for two bytes, so that the
marker is what is removed again, and what was removed counts as much as the marker. -/
def Stable (policy : TruncationPolicy) (text : Str) : Prop :=
  let budget := policy.byteBudget
  let left := Str.takeBytes (budget / 2) text
  let right := Str.takeBytesEnd (budget - budget / 2) text
  Str.utf8Size text ≤ budget ∨
    (budget / 2 ≤ Str.utf8Size left + 2 ∧ budget - budget / 2 ≤ Str.utf8Size right + 2 ∧
      KeepsCount policy (Str.utf8Size left + Str.utf8Size right) (Str.utf8Size text - budget)
        (text.length - left.length - right.length))

section Idempotent

variable {text left mid right : Str} {policy : TruncationPolicy} {k a b : Nat}

/-- Where an ellipsis fits beside the left end, cutting a truncated text again keeps one. -/
theorem ne_of_left_fits {right' : Str}
    (htext : text = left ++ formatTruncationMarker policy k ++ right)
    (hleft : Str.utf8Size left + 3 = a) (k' : Nat) :
    Str.takeBytes a text ++ formatTruncationMarker policy k' ++ right' ≠ text := by
  have hellipsis := utf8Size_ellipsis
  obtain ⟨c, rest, hdigits, hc⟩ := exists_digit k
  have hcsize := utf8Size_of_isDigit hc
  have htake : Str.takeBytes a text = left ++ ['…'] := by
    have hsplit : text = (left ++ ['…']) ++
        c :: (rest ++ (markerUnit policy ++ ['…']) ++ right) := by
      rw [htext, formatTruncationMarker_eq, hdigits]
      simp
    rw [hsplit]
    apply Str.takeBytes_append_cons
    · rw [Str.utf8Size_append, Str.utf8Size_cons, Str.utf8Size_nil]
      omega
    · rw [Str.utf8Size_append, Str.utf8Size_cons, Str.utf8Size_nil]
      omega
  intro h
  rw [htake, htext, formatTruncationMarker_eq, formatTruncationMarker_eq, hdigits] at h
  -- the second marker begins where the first one has a digit
  simp only [List.append_assoc, List.cons_append, List.nil_append, List.append_cancel_left_eq,
    List.cons.injEq, true_and] at h
  rw [← h.1] at hc
  exact absurd hc (by decide)

theorem ne_of_right_fits {left' : Str}
    (htext : text = left ++ formatTruncationMarker policy k ++ right)
    (hright : Str.utf8Size right + 3 = b) (k' : Nat) :
    left' ++ formatTruncationMarker policy k' ++ Str.takeBytesEnd b text ≠ text := by
  have hellipsis := utf8Size_ellipsis
  have hdsize : 'd'.utf8Size = 1 := by decide
  obtain ⟨init, hunit⟩ : ∃ init, markerUnit policy = init ++ ['d'] := by
    cases policy with
    | bytes limit => exact ⟨" chars truncate", rfl⟩
    | tokens limit => exact ⟨" tokens truncate", rfl⟩
  have htake : Str.takeBytesEnd b text = '…' :: right := by
    have hsplit : text.reverse = (right.reverse ++ ['…']) ++
        'd' :: (init.reverse ++ (left ++ '…' :: Nat.toDigits 10 k).reverse) := by
      rw [htext, formatTruncationMarker_eq, hunit]
      simp
    have hbytes : Str.takeBytes b text.reverse = right.reverse ++ ['…'] := by
      rw [hsplit]
      apply Str.takeBytes_append_cons
      · rw [Str.utf8Size_append, Str.utf8Size_cons, Str.utf8Size_nil, Str.utf8Size_reverse]
        omega
      · rw [Str.utf8Size_append, Str.utf8Size_cons, Str.utf8Size_nil, Str.utf8Size_reverse]
        omega
    rw [Str.takeBytesEnd, hbytes, List.reverse_append, List.reverse_reverse]
    rfl
  intro h
  -- the second marker ends where the first one has a letter
  have hends : ((left' ++ '…' :: (Nat.toDigits 10 k' ++ markerUnit policy)) ++ ['…']) ++
      ('…' :: right) = ((left ++ '…' :: (Nat.toDigits 10 k ++ init)) ++ ['d']) ++
      ('…' :: right) := by
    rw [htake, htext, formatTruncationMarker_eq, formatTruncationMarker_eq] at h
    simpa [hunit] using h
  replace hends := List.append_cancel_right hends
  have hlast := congrArg List.getLast? hends
  rw [List.getLast?_concat, List.getLast?_concat] at hlast
  exact absurd (Option.some.inj hlast) (by decide)

theorem lt_utf8Size_truncateText (hlt : policy.byteBudget < Str.utf8Size text) :
    policy.byteBudget < Str.utf8Size (truncateText text policy) := by
  obtain ⟨mid, htext, hcut⟩ := Str.exists_cut (a := policy.byteBudget / 2)
    (b := policy.byteBudget - policy.byteBudget / 2) (s := text) (by omega)
  have htruncate := truncateText_of_cut hcut (htext ▸ hlt)
  rw [← htext] at htruncate
  generalize removedUnitsForSource policy (Str.utf8Size text - policy.byteBudget) mid.length = k
    at htruncate
  have hmarker := utf8Size_formatTruncationMarker policy k
  have hdigits := Nat.length_toDigits_pos (b := 10) (n := k)
  have hleft := Str.le_utf8Size_takeBytes (n := policy.byteBudget / 2) (s := text) (by omega)
  have hright := Str.le_utf8Size_takeBytesEnd (n := policy.byteBudget - policy.byteBudget / 2)
    (s := text) (by omega)
  rw [htruncate, Str.utf8Size_append, Str.utf8Size_append]
  omega

theorem truncateText_cut_idem_iff
    (h : Str.Cut (policy.byteBudget / 2) (policy.byteBudget - policy.byteBudget / 2) left mid right)
    (hlt : policy.byteBudget < Str.utf8Size (left ++ mid ++ right)) :
    truncateText (truncateText (left ++ mid ++ right) policy) policy =
        truncateText (left ++ mid ++ right) policy ↔
      policy.byteBudget / 2 ≤ Str.utf8Size left + 2 ∧
        policy.byteBudget - policy.byteBudget / 2 ≤ Str.utf8Size right + 2 ∧
        KeepsCount policy (Str.utf8Size left + Str.utf8Size right)
          (Str.utf8Size (left ++ mid ++ right) - policy.byteBudget) mid.length := by
  have hleft := h.left_le
  have hright := h.right_le
  have hellipsis := utf8Size_ellipsis
  have hleftRoom : policy.byteBudget / 2 ≤ Str.utf8Size left + 3 := by
    obtain ⟨c, rest, -, hc⟩ := h.next
    have hfour := c.utf8Size_le_four
    omega
  have hrightRoom : policy.byteBudget - policy.byteBudget / 2 ≤ Str.utf8Size right + 3 := by
    obtain ⟨c, rest, -, hc⟩ := h.prev
    have hfour := c.utf8Size_le_four
    omega
  rw [truncateText_of_cut h hlt]
  generalize hk : removedUnitsForSource policy _ mid.length = k
  generalize htext : left ++ formatTruncationMarker policy k ++ right = text
  have hsize : Str.utf8Size text = Str.utf8Size left + Str.utf8Size right +
      Str.utf8Size (formatTruncationMarker policy k) := by
    rw [← htext, Str.utf8Size_append, Str.utf8Size_append]
    omega
  have hlong : policy.byteBudget < Str.utf8Size text := by
    have hagain := lt_utf8Size_truncateText hlt
    rwa [truncateText_of_cut h hlt, hk, htext] at hagain
  by_cases hleftFits : policy.byteBudget / 2 ≤ Str.utf8Size left + 2
  · by_cases hrightFits : policy.byteBudget - policy.byteBudget / 2 ≤ Str.utf8Size right + 2
    · -- the marker is what the second truncation removes
      have hcut : Str.Cut (policy.byteBudget / 2) (policy.byteBudget - policy.byteBudget / 2) left
          (formatTruncationMarker policy k) right := by
        refine ⟨hleft, hright, ⟨'…', _, formatTruncationMarker_eq, by omega⟩, '…',
          '…' :: (Nat.toDigits 10 k ++ markerUnit policy), ?_, by omega⟩
        rw [formatTruncationMarker_eq]
        simp
      have hagain := truncateText_of_cut hcut (htext.symm ▸ hlong)
      rw [htext, hsize] at hagain
      rw [hagain, and_iff_right hleftFits, and_iff_right hrightFits,
        ← recount_iff (by omega) (by omega) hk.symm, ← htext]
      constructor
      · intro heq
        have hmarkers := List.append_cancel_left (List.append_cancel_right heq)
        exact formatTruncationMarker_inj hmarkers
      · intro heq
        rw [heq]
    · refine iff_of_false ?_ fun hall => hrightFits hall.2.1
      obtain ⟨mid', htext', hcut⟩ := Str.exists_cut (a := policy.byteBudget / 2)
        (b := policy.byteBudget - policy.byteBudget / 2) (s := text) (by omega)
      have hagain := truncateText_of_cut hcut (htext' ▸ hlong)
      rw [← htext'] at hagain
      rw [hagain]
      exact ne_of_right_fits htext.symm (by omega) _
  · refine iff_of_false ?_ fun hall => hleftFits hall.1
    obtain ⟨mid', htext', hcut⟩ := Str.exists_cut (a := policy.byteBudget / 2)
      (b := policy.byteBudget - policy.byteBudget / 2) (s := text) (by omega)
    have hagain := truncateText_of_cut hcut (htext' ▸ hlong)
    rw [← htext'] at hagain
    rw [hagain]
    exact ne_of_left_fits htext.symm (by omega) _

/-- Truncating a text twice under one policy is truncating it once just for the stable texts. -/
theorem truncateText_idem_iff : truncateText (truncateText text policy) policy =
    truncateText text policy ↔ Stable policy text := by
  unfold Stable
  dsimp only
  by_cases hle : Str.utf8Size text ≤ policy.byteBudget
  · rw [truncateText_of_le hle, truncateText_of_le hle]
    exact iff_of_true rfl (.inl hle)
  · rw [or_iff_right hle]
    obtain ⟨mid, htext, hcut⟩ := Str.exists_cut (a := policy.byteBudget / 2)
      (b := policy.byteBudget - policy.byteBudget / 2) (s := text) (by omega)
    have hlength : text.length - (Str.takeBytes (policy.byteBudget / 2) text).length -
        (Str.takeBytesEnd (policy.byteBudget - policy.byteBudget / 2) text).length =
        mid.length := by
      have hlen := congrArg List.length htext
      rw [List.length_append, List.length_append] at hlen
      omega
    have hidem := truncateText_cut_idem_iff hcut (htext ▸ Nat.lt_of_not_le hle)
    rw [← htext] at hidem
    rw [hidem, hlength]

end Idempotent

end SheriMl.ContextManager
