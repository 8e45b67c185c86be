import Mathlib.Algebra.BigOperators.Group.List.Basic
import Mathlib.Tactic.Linarith
import SheriMl.Lib.Result
import SheriMl.MessageHistory.File

/-!
# What the cap keeps

A history over its cap keeps its newest lines, as many as fit in the trim target, and the newest
one in any case (`enforceHistoryLimit_spec`).
-/

namespace SheriMl.MessageHistory

open Pieces Result

variable {maxBytes newest : Nat} {lines kept : List Str} {content : List UInt8}

/-! ## The trim target -/

/-- Four fifths of a number are at most the number, for all that rounding adds. -/
theorem round_ratio_le (maxBytes : Nat) :
    Float64.round (Float64.round maxBytes * historySoftCapRatio) / 2 ^ 52 ≤ maxBytes := by
  have hmax := Float64.round_le maxBytes
  have hproduct := Float64.round_le (Float64.round maxBytes * historySoftCapRatio)
  have hfloor := Nat.div_mul_le_self
    (Float64.round (Float64.round maxBytes * historySoftCapRatio)) (2 ^ 52)
  generalize Float64.round (Float64.round maxBytes * historySoftCapRatio) = product at *
  generalize Float64.round maxBytes = max64 at *
  rw [historySoftCapRatio] at hproduct
  generalize product / 2 ^ 52 = floor at *
  norm_num at hmax hproduct hfloor
  linarith

theorem softCapBytes_le (h : 0 < maxBytes) : softCapBytes maxBytes ≤ maxBytes :=
  calc softCapBytes maxBytes
      ≤ max 1 (min (Float64.round (Float64.round maxBytes * historySoftCapRatio) / 2 ^ 52)
          (Float64.round maxBytes)) := Nat.min_le_left ..
    _ ≤ maxBytes := Nat.max_le.2 ⟨h, Nat.le_trans (Nat.min_le_left ..) (round_ratio_le maxBytes)⟩

theorem trimTargetBytes_le (h : 0 < maxBytes) :
    trimTargetBytes maxBytes newest ≤ max maxBytes newest :=
  max_le_max (softCapBytes_le h) (Nat.le_refl newest)

/-- The loop stops at the first number of lines that are enough to drop. -/
theorem dropOldest_spec (trimTarget : Nat) (lens : List Nat) (currentLen dropBytes : Nat) :
    ∃ k ≤ lens.length,
      dropOldest trimTarget lens currentLen dropBytes =
        (currentLen - (lens.take k).sum, dropBytes + (lens.take k).sum) ∧
      (k < lens.length → currentLen - (lens.take k).sum ≤ trimTarget) ∧
      ∀ j < k, trimTarget < currentLen - (lens.take j).sum := by
  induction lens generalizing currentLen dropBytes with
  | nil =>
    exact ⟨0, Nat.le_refl 0, rfl, fun h => absurd h (Nat.lt_irrefl 0),
      fun j hj => absurd hj (Nat.not_lt_zero j)⟩
  | cons len lens ih =>
    rw [dropOldest]
    split
    next hover =>
      obtain ⟨k, hk, heq, hstop, hgo⟩ := ih (currentLen - len) (dropBytes + len)
      refine ⟨k + 1, Nat.succ_le_succ hk, ?_, ?_, ?_⟩
      · rw [heq, List.take_succ_cons, List.sum_cons, Nat.sub_sub, Nat.add_assoc]
      · intro hlt
        rw [List.take_succ_cons, List.sum_cons, ← Nat.sub_sub]
        exact hstop (Nat.lt_of_succ_lt_succ hlt)
      · intro j hj
        cases j with
        | zero => exact hover
        | succ j =>
          rw [List.take_succ_cons, List.sum_cons, ← Nat.sub_sub]
          exact hgo j (Nat.lt_of_succ_lt_succ hj)
    next hfits =>
      exact ⟨0, Nat.zero_le _, rfl, fun _ => Nat.le_of_not_lt hfits,
        fun j hj => absurd hj (Nat.not_lt_zero j)⟩

/-! ## The bytes that are kept -/

/-- What the newest line takes. -/
def newestLen (content : List UInt8) : Nat :=
  ((pieces 10 content).getLast?.map List.length).getD 0

theorem length_content (content : List UInt8) :
    ((pieces 10 content).map List.length).sum = content.length := by
  rw [← List.length_flatten, flatten_pieces]

theorem length_drop_pieces (content : List UInt8) (k : Nat) :
    ((pieces 10 content).drop k).flatten.length =
      content.length - (((pieces 10 content).map List.length).take k).sum := by
  rw [← List.drop_sum_flatten, List.length_drop, flatten_pieces]

theorem length_last_piece {k : Nat} (hk : k + 1 = (pieces 10 content).length) :
    ((pieces 10 content).drop k).flatten.length = newestLen content := by
  have hlt : k < (pieces 10 content).length := by omega
  have hlast : (pieces 10 content).getLast? = some (pieces 10 content)[k] := by
    rw [List.getLast?_eq_getElem?, ← hk, Nat.add_sub_cancel, List.getElem?_eq_getElem hlt]
  rw [newestLen, hlast, List.drop_eq_getElem_cons hlt, List.drop_eq_nil_of_le (by omega)]
  simp

/-- Over the cap, the fewest lines are dropped that bring the rest down to the trim target. -/
theorem enforceHistoryLimit_of_over
    (hvalid : ∀ line ∈ pieces 10 content, (Str.fromUtf8 line).isSome = true) (hmax : 0 < maxBytes)
    (hover : maxBytes < content.length) :
    ∃ k < (pieces 10 content).length,
      enforceHistoryLimit (some maxBytes) content = .ok ((pieces 10 content).drop k).flatten ∧
      ((pieces 10 content).drop k).flatten.length ≤
        trimTargetBytes maxBytes (newestLen content) ∧
      ∀ j < k, trimTargetBytes maxBytes (newestLen content) <
        ((pieces 10 content).drop j).flatten.length := by
  have hne : pieces 10 content ≠ [] := by
    intro hnil
    rw [← length_content, hnil] at hover
    exact absurd hover (Nat.not_lt_zero _)
  have hpos : 0 < (pieces 10 content).length := List.length_pos_iff.2 hne
  obtain ⟨lens, hlens⟩ : ∃ lens, (pieces 10 content).map List.length = lens := ⟨_, rfl⟩
  have hlength : lens.length = (pieces 10 content).length := by
    rw [← hlens, List.length_map]
  have hnewest : lens.getLast? = some (newestLen content) := by
    rw [← hlens, List.getLast?_map, newestLen, List.getLast?_eq_some_getLast hne]
    rfl
  obtain ⟨k, hk, hdrop, hstop, hgo⟩ := dropOldest_spec
    (trimTargetBytes maxBytes (newestLen content)) lens.dropLast content.length 0
  rw [List.length_dropLast, hlength] at hk hstop
  have hleft {j : Nat} (hj : j ≤ (pieces 10 content).length - 1) :
      content.length - (lens.dropLast.take j).sum =
        ((pieces 10 content).drop j).flatten.length := by
    rw [length_drop_pieces, hlens, List.dropLast_eq_take, List.take_take, hlength,
      Nat.min_eq_left hj]
  have hdropped : content.drop (lens.dropLast.take k).sum = ((pieces 10 content).drop k).flatten := by
    rw [← List.drop_sum_flatten, flatten_pieces, hlens, List.dropLast_eq_take, List.take_take,
      hlength, Nat.min_eq_left hk]
  rw [Nat.zero_add] at hdrop
  rw [hleft hk] at hstop
  refine ⟨k, by omega, ?_, ?_, ?_⟩
  · have hlens' : lineLengths content = .ok lens := by
      rw [lineLengths, if_pos (List.all_eq_true.2 hvalid), hlens]
    have hdone : enforceHistoryLimit (some maxBytes) content =
        if (lens.dropLast.take k).sum = 0 then .ok content
        else .ok (content.drop (lens.dropLast.take k).sum) := by
      simp only [enforceHistoryLimit, if_neg (Nat.pos_iff_ne_zero.1 hmax),
        if_neg (Nat.not_le.2 hover), hlens', ok_bind, hnewest, hdrop]
      rfl
    rw [hdone, ← hdropped]
    split
    next hzero => rw [hzero, List.drop_zero]
    · rfl
  · rcases Nat.eq_or_lt_of_le hk with heq | hlt
    · rw [length_last_piece (by omega)]
      exact Nat.le_max_right ..
    · exact hstop hlt
  · intro j hj
    rw [← hleft (by omega)]
    exact hgo j hj

theorem enforceHistoryLimit_of_le (h : content.length ≤ maxBytes) :
    enforceHistoryLimit (some maxBytes) content = .ok content := by
  by_cases hzero : maxBytes = 0
  · simp only [enforceHistoryLimit, if_pos hzero]
    rfl
  · simp only [enforceHistoryLimit, if_neg hzero, if_pos h]
    rfl

/-! ## Histories of lines -/

/-- The bytes of some lines, each with its newline. -/
def historyText (lines : List Str) : List UInt8 := terminate 10 (lines.map Str.asBytes)

theorem pieces_historyText (hlines : ∀ l ∈ lines, '\n' ∉ l) :
    pieces 10 (historyText lines) = lines.map fun l => Str.asBytes (l ++ ['\n']) := by
  rw [historyText, pieces_terminate, List.map_map]
  · refine List.map_congr_left fun l _ => ?_
    rw [Function.comp_apply, Str.asBytes_append]
    rfl
  · intro l hl
    obtain ⟨line, hline, rfl⟩ := List.mem_map.1 hl
    exact Str.notMem_asBytes (hlines line hline)

theorem flatten_drop_pieces (hlines : ∀ l ∈ lines, '\n' ∉ l) (k : Nat) :
    ((pieces 10 (historyText lines)).drop k).flatten = historyText (lines.drop k) := by
  rw [pieces_historyText hlines, ← List.map_drop,
    ← pieces_historyText fun l hl => hlines l (List.drop_subset k lines hl), flatten_pieces]

theorem isSome_fromUtf8_of_mem (hlines : ∀ l ∈ lines, '\n' ∉ l) :
    ∀ line ∈ pieces 10 (historyText lines), (Str.fromUtf8 line).isSome = true := by
  intro line hline
  rw [pieces_historyText hlines] at hline
  obtain ⟨l, -, rfl⟩ := List.mem_map.1 hline
  rw [Str.fromUtf8_asBytes]
  rfl

theorem length_pieces_historyText (hlines : ∀ l ∈ lines, '\n' ∉ l) :
    (pieces 10 (historyText lines)).length = lines.length := by
  rw [pieces_historyText hlines, List.length_map]

/-- A history and what the cap leaves of it. -/
structure Trimmed (maxBytes : Nat) (lines kept : List Str) : Prop where
  suffix : kept <:+ lines
  newest : kept.getLast? = lines.getLast?
  unchanged : (historyText lines).length ≤ maxBytes → kept = lines
  fits : maxBytes < (historyText lines).length →
    (historyText kept).length ≤ trimTargetBytes maxBytes (newestLen (historyText lines))
  longest : maxBytes < (historyText lines).length → ∀ longer, longer <:+ lines →
    (historyText longer).length ≤ trimTargetBytes maxBytes (newestLen (historyText lines)) →
      longer <:+ kept
  alone : maxBytes < (historyText lines).length →
    softCapBytes maxBytes < newestLen (historyText lines) → ∃ line, kept = [line]

/-- More than one line takes more than the newest one. -/
theorem newestLen_lt_length {k : Nat} (hk : k + 1 < (pieces 10 content).length) :
    newestLen content < ((pieces 10 content).drop k).flatten.length := by
  have hlt : k < (pieces 10 content).length := by omega
  obtain ⟨n, hn⟩ : ∃ n, n + 1 = (pieces 10 content).length := ⟨(pieces 10 content).length - 1, by omega⟩
  have hfirst : 0 < ((pieces 10 content)[k]).length :=
    List.length_pos_iff.2 (ne_nil_of_mem_pieces (List.getElem_mem hlt))
  have hrest : newestLen content ≤ ((pieces 10 content).drop (k + 1)).flatten.length := by
    obtain ⟨d, rfl⟩ : ∃ d, n = k + 1 + d := ⟨n - (k + 1), by omega⟩
    rw [← length_last_piece hn, ← List.drop_drop, ← List.take_append_drop d
      ((pieces 10 content).drop (k + 1)), List.flatten_append, List.length_append,
      List.take_append_drop]
    exact Nat.le_add_left ..
  rw [List.drop_eq_getElem_cons hlt, List.flatten_cons, List.length_append]
  omega

theorem enforceHistoryLimit_spec (lines : List Str) (hlines : ∀ l ∈ lines, '\n' ∉ l)
    (maxBytes : Nat) (hmax : 0 < maxBytes) :
    ∃ kept, enforceHistoryLimit (some maxBytes) (historyText lines) = .ok (historyText kept) ∧
      Trimmed maxBytes lines kept := by
  by_cases hover : maxBytes < (historyText lines).length
  · obtain ⟨k, hk, hok, hfits, hmore⟩ :=
      enforceHistoryLimit_of_over (isSome_fromUtf8_of_mem hlines) hmax hover
    rw [flatten_drop_pieces hlines] at hok hfits
    rw [length_pieces_historyText hlines] at hk
    refine ⟨lines.drop k, hok, List.drop_suffix k lines, ?_, ?_, fun _ => hfits, ?_, ?_⟩
    · rw [List.getLast?_drop, if_neg (Nat.not_le.2 hk)]
    · intro hle
      exact absurd hover (Nat.not_lt.2 hle)
    · intro _ longer hlonger hsize
      have hlength := hlonger.length_le
      rw [List.suffix_iff_eq_drop] at hlonger
      have hge : k ≤ lines.length - longer.length := by
        by_contra hlt
        have hbig := hmore (lines.length - longer.length) (by omega)
        rw [flatten_drop_pieces hlines, ← hlonger] at hbig
        omega
      rw [hlonger]
      obtain ⟨n, hn⟩ := Nat.exists_eq_add_of_le hge
      rw [hn, ← List.drop_drop]
      exact List.drop_suffix n (lines.drop k)
    · intro _ halone
      rw [trimTargetBytes, Nat.max_eq_right (Nat.le_of_lt halone)] at hfits
      have hlast : ¬k + 1 < lines.length := by
        intro hlt
        rw [← length_pieces_historyText hlines] at hlt
        have hlong := newestLen_lt_length hlt
        rw [flatten_drop_pieces hlines] at hlong
        omega
      exact ⟨lines[k], by rw [List.drop_eq_getElem_cons hk, List.drop_eq_nil_of_le (by omega)]⟩
  · exact ⟨lines, enforceHistoryLimit_of_le (Nat.not_lt.1 hover), List.suffix_refl lines, rfl,
      fun _ => rfl, fun h => absurd h hover, fun h => absurd h hover, fun h => absurd h hover⟩

theorem enforceHistoryLimit_spec_twoLines :
    ∃ kept, enforceHistoryLimit (some 6) (historyText ["old", "new"]) = .ok (historyText kept) ∧
      Trimmed 6 ["old", "new"] kept :=
  enforceHistoryLimit_spec ["old", "new"] (by decide) 6 (by decide)

end SheriMl.MessageHistory
