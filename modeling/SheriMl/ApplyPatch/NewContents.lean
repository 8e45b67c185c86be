import SheriMl.ApplyPatch.Placement
import SheriMl.Lib.Lines

/-!
# The new contents as lines

`derive_new_contents_from_chunks` drops the empty element that the final newline leaves
behind, edits the lines, and appends an empty element again unless the last line is
already empty. A last line that is blank is taken for the final newline then, and is
lost when the file is read next.
-/

namespace SheriMl.ApplyPatch

open Splice

variable {lines ls : List Str} {path contents new : Str} {chunks : List UpdateFileChunk}
  {rs : List Replacement} {r : Replacement}

/-- Read back as lines, the new contents are the replacements applied to the lines of the
file; and every line that no replacement covers is still there. -/
structure LinesKept (path contents : Str) (chunks : List UpdateFileChunk)
    (rs : List Replacement) : Prop where
  reads_back : ∀ new, deriveNewContents path contents chunks = .ok new →
    applyReplacements (originalLines contents) rs = some (originalLines new)
  survives : ∀ new, deriveNewContents path contents chunks = .ok new →
    (uncovered rs (originalLines contents)).Sublist (originalLines new)

/-! ## Lines and their text -/

theorem split_join_lines (hls : ∀ l ∈ ls, '\n' ∉ l) (hne : ls ≠ []) :
    Str.split '\n' (Str.join ['\n'] ls) = ls :=
  List.splitOn_intercalate '\n' hls hne

theorem dropBlankLast_concat : dropBlankLast (ls ++ [[]]) = ls := by
  rw [dropBlankLast, List.getLast?_concat, if_pos rfl, List.dropLast_concat]

theorem notMem_of_mem_originalLines {line : Str} (h : line ∈ originalLines contents) :
    '\n' ∉ line := by
  rw [originalLines, dropBlankLast] at h
  split at h
  · exact Str.notMem_of_mem_split (List.dropLast_subset _ h)
  · exact Str.notMem_of_mem_split h

def finish (newLines : List Str) : Str :=
  Str.join ['\n'] (if newLines.getLast? = some [] then newLines else newLines ++ [[]])

/-- The text reads back as its lines unless the last one is blank. -/
theorem originalLines_finish (hls : ∀ l ∈ ls, '\n' ∉ l) :
    originalLines (finish ls) = ls ↔ ls.getLast? ≠ some [] := by
  rw [finish, originalLines]
  by_cases hblank : ls.getLast? = some []
  · have hne : ls ≠ [] := by
      rintro rfl
      cases hblank
    rw [if_pos hblank, split_join_lines hls hne, dropBlankLast, if_pos hblank]
    refine iff_of_false (fun h => ?_) fun h => h hblank
    -- a dropped last line makes the list shorter
    have hlen := congrArg List.length h
    have hpos := List.length_pos_of_ne_nil hne
    rw [List.length_dropLast] at hlen
    omega
  · have hls' : ∀ l ∈ ls ++ [[]], '\n' ∉ l := by
      intro l hl
      rcases List.mem_append.1 hl with hl | hl
      · exact hls l hl
      · rw [List.mem_singleton.1 hl]
        exact List.not_mem_nil
    rw [if_neg hblank, split_join_lines hls' (by simp), dropBlankLast_concat]
    exact iff_of_true rfl hblank

/-- What a successful run returns. -/
theorem deriveNewContents_eq_ok (hrs : computeReplacements (originalLines contents) path chunks =
      .ok rs) : deriveNewContents path contents chunks =
        .ok (finish (applyDesc rs (originalLines contents))) := by
  have happly := applyReplacements_eq (computeReplacements_sorted hrs) fun r hr =>
    Nat.le_trans r.start_le_stop (computeReplacements_inBounds hrs r hr)
  simp [deriveNewContents, hrs, happly, finish, bind, Except.bind, pure, Except.pure]

/-! ## Where new lines come from -/

theorem mem_of_mem_dropBlankLast {l : Str} (h : l ∈ dropBlankLast ls) : l ∈ ls := by
  rw [dropBlankLast] at h
  split at h
  · exact List.dropLast_subset _ h
  · exact h

theorem mem_newLines_of_findOldLines {chunk : UpdateFileChunk} {i : Nat} {l : Str}
    (h : findOldLines lines chunk i = some r) (hl : l ∈ r.new) : l ∈ chunk.newLines := by
  unfold findOldLines at h
  split at h
  · cases h
    exact hl
  · split at h
    · obtain ⟨start, -, rfl⟩ := Option.map_eq_some_iff.1 h
      exact mem_of_mem_dropBlankLast hl
    · cases h

theorem chunk_mem_of_mem_sought {i : Nat} {s : Sought} (h : s ∈ sought lines i chunks) :
    s.chunk ∈ chunks := by
  induction chunks generalizing i with
  | nil => cases h
  | cons chunk chunks ih =>
    rw [sought] at h
    split at h
    · cases h
    · rcases List.mem_cons.1 h with rfl | h
      · exact List.mem_cons_self
      · exact List.mem_cons_of_mem _ (ih h)

theorem exists_chunk_of_mem_new (h : computeReplacements lines path chunks = .ok rs)
    (hr : r ∈ rs) {l : Str} (hl : l ∈ r.new) : ∃ chunk ∈ chunks, l ∈ chunk.newLines := by
  obtain ⟨ps, hfst, rfl, hplaced, -⟩ := computeReplacements_spec h
  obtain ⟨p, hp, rfl⟩ := List.mem_map.1 (mem_sortByStart.1 hr)
  have hsought : p.1 ∈ sought lines 0 chunks := by
    rw [← hfst]
    exact List.mem_map_of_mem hp
  refine ⟨p.1.chunk, chunk_mem_of_mem_sought hsought, ?_⟩
  rcases (hplaced p hp).cases with ⟨-, hr⟩ | ⟨-, hfound, -⟩
  · rw [hr] at hl
    exact hl
  · exact mem_newLines_of_findOldLines hfound hl

theorem oneLine_applyDesc (h : computeReplacements (originalLines contents) path chunks = .ok rs)
    (hlines : ∀ chunk ∈ chunks, ∀ l ∈ chunk.newLines, '
' ∉ l) :
    ∀ l ∈ applyDesc rs (originalLines contents), '
' ∉ l := by
  intro l hl
  rcases mem_applyDesc hl with hl | ⟨r, hr, hl⟩
  · exact notMem_of_mem_originalLines hl
  · obtain ⟨chunk, hchunk, hl⟩ := exists_chunk_of_mem_new h hr hl
    exact hlines chunk hchunk l hl

/-! ## Windows that reach the end -/

/-- Of two placements, the first in the file ends before the second begins, or one of them
reaches the end of the file and covers what the other leaves. -/
theorem stop_le_or_covered {all : List Replacement} {p q : Placement} (hp : Placed lines p)
    (hq : Placed lines q) (hpq : Follows p q) (hpall : p.2 ∈ all) (hqall : q.2 ∈ all) :
    (p.2.start ≤ q.2.start → p.2.stop ≤ q.2.start ∨
      ∀ j, p.2.start ≤ j → j < lines.length → covered all j = true) ∧
    (q.2.start < p.2.start → q.2.stop ≤ p.2.start ∨
      ∀ j, q.2.start ≤ j → j < lines.length → covered all j = true) := by
  have hins := insertionIdx_cases lines
  have hpstop := p.2.start_le_stop
  -- a window to the end covers everything from its start on
  have hcover {r : Replacement} (hr : r ∈ all) (hend : lines.length ≤ r.stop) :
      ∀ j, r.start ≤ j → j < lines.length → covered all j = true := fun j hj hlt =>
    covered_of_mem hr hj (by omega)
  rcases hp.cases with ⟨-, hpadd⟩ | ⟨hpold, -, hpfound⟩
  · have hps : p.2.start = insertionIdx lines ∧ p.2.stop = insertionIdx lines := by
      rw [hpadd]
      exact ⟨rfl, rfl⟩
    refine ⟨fun _ => .inl (by omega), fun _ => ?_⟩
    by_cases hend : lines.length ≤ q.2.stop
    · exact .inr (hcover hqall hend)
    · exact .inl (by omega)
  · rcases hq.cases with ⟨-, hqadd⟩ | ⟨hqold, -, hqfound⟩
    · have hqs : q.2.start = insertionIdx lines ∧ q.2.stop = insertionIdx lines := by
        rw [hqadd]
        exact ⟨rfl, rfl⟩
      refine ⟨fun _ => ?_, fun _ => .inl (by omega)⟩
      by_cases hend : lines.length ≤ p.2.stop
      · exact .inr (hcover hpall hend)
      · exact .inl (by omega)
    · have hcursor := hpq hpold
      rcases hqfound.start with hstart | ⟨heof, hlen⟩
      · exact ⟨fun _ => .inl (by omega), fun _ => by omega⟩
      · have hend := hqfound.eof heof hlen
        refine ⟨fun hle => ?_, fun _ => .inr (hcover hqall (by omega))⟩
        by_cases hover : p.2.stop ≤ q.2.start
        · exact .inl hover
        · refine .inr fun j hj hlt => ?_
          by_cases hbefore : j < p.2.stop
          · exact covered_of_mem hpall hj hbefore
          · exact covered_of_mem hqall (by omega) (by omega)

theorem chainToCover (h : computeReplacements lines path chunks = .ok rs) :
    ChainToCover rs rs lines.length := by
  obtain ⟨ps, -, rfl, hplaced, hfollows⟩ := computeReplacements_spec h
  refine pairwise_sortByStart_of_pairwise (List.pairwise_map.2 ?_)
  refine hfollows.imp_of_mem fun {p q} hp hq hpq => ?_
  exact stop_le_or_covered (hplaced p hp) (hplaced q hq) hpq
    (mem_sortByStart.2 (List.mem_map_of_mem hp)) (mem_sortByStart.2 (List.mem_map_of_mem hq))

/-- The lines are kept exactly if the line that ends up last is not blank. -/
theorem linesKept_iff (path contents : Str) (chunks : List UpdateFileChunk)
    (rs : List Replacement) (hlines : ∀ chunk ∈ chunks, ∀ l ∈ chunk.newLines, '
' ∉ l)
    (hrs : computeReplacements (originalLines contents) path chunks = .ok rs) :
    LinesKept path contents chunks rs ↔ lastStanding rs (originalLines contents) ≠ some [] := by
  have hsorted := computeReplacements_sorted hrs
  have hbounds := computeReplacements_inBounds hrs
  have hstart : ∀ r ∈ rs, r.start ≤ (originalLines contents).length := fun r hr =>
    Nat.le_trans r.start_le_stop (hbounds r hr)
  have hok := deriveNewContents_eq_ok hrs
  have happly := applyReplacements_eq hsorted hstart
  rw [← getLast?_applyDesc hsorted hstart, ← originalLines_finish (oneLine_applyDesc hrs hlines)]
  constructor
  · intro hkept
    have hback := hkept.reads_back _ hok
    rw [happly] at hback
    exact (Option.some.inj hback).symm
  · intro hback
    refine ⟨fun new hnew => ?_, fun new hnew => ?_⟩
    · cases hok.symm.trans hnew
      rw [happly, hback]
    · cases hok.symm.trans hnew
      rw [hback]
      exact uncovered_sublist_applyDesc hsorted (chainToCover hrs) hbounds

/-- A blank line inside the file is kept. -/
theorem linesKept_innerBlank :
    let rs : List Replacement := [⟨0, 1, ["x", "y"]⟩]
    LinesKept "f" "a\n\nb\n" [⟨none, ["a"], ["x", "y"], false⟩] rs ↔
      lastStanding rs (originalLines "a\n\nb\n") ≠ some [] :=
  linesKept_iff "f" "a\n\nb\n" [⟨none, ["a"], ["x", "y"], false⟩] [⟨0, 1, ["x", "y"]⟩]
    (by decide) (by decide)

/-- In a file that ends with a blank line, replacing the line before loses it. -/
theorem not_linesKept_trailingBlank :
    deriveNewContents "f" "a\n\n" [⟨none, ["a"], ["b"], false⟩] = .ok ("b\n" : Str) ∧
      applyReplacements (originalLines "a\n\n") [⟨0, 1, ["b"]⟩] = some [['b'], []] ∧
      originalLines "b\n" = [['b']] ∧
      ¬ LinesKept "f" "a\n\n" [⟨none, ["a"], ["b"], false⟩] [⟨0, 1, ["b"]⟩] := by
  have hnew : deriveNewContents "f" "a\n\n" [⟨none, ["a"], ["b"], false⟩] = .ok ("b\n" : Str) := by
    decide
  refine ⟨hnew, by decide, by decide, fun hkept => ?_⟩
  exact absurd (hkept.reads_back _ hnew) (by decide)

/-! ## The lines of a parsed patch -/

theorem oneLine_parseChunkLines {n parsedLines k : Nat} {chunk chunk' : UpdateFileChunk}
    (hlines : ∀ l ∈ lines, '\n' ∉ l) (hchunk : ∀ l ∈ chunk.newLines, '\n' ∉ l)
    (h : parseChunkLines n lines chunk parsedLines = .ok (chunk', k)) :
    ∀ l ∈ chunk'.newLines, '\n' ∉ l := by
  induction lines generalizing chunk parsedLines with
  | nil =>
    cases h
    exact hchunk
  | cons line lines ih =>
    obtain ⟨hline, hrest⟩ := List.forall_mem_cons.1 hlines
    have hadd {s : Str} (hs : '\n' ∉ s) : ∀ l ∈ chunk.newLines ++ [s], '\n' ∉ l := by
      intro l hl
      rcases List.mem_append.1 hl with hl | hl
      · exact hchunk l hl
      · rwa [List.mem_singleton.1 hl]
    unfold parseChunkLines at h
    split at h
    · split at h
      · cases h
      · cases h
        exact hchunk
    · split at h
      · exact ih hrest (hadd List.not_mem_nil) h
      · exact ih hrest (hadd fun hs => hline (List.mem_cons_of_mem _ hs)) h
      · exact ih hrest (hadd fun hs => hline (List.mem_cons_of_mem _ hs)) h
      · refine ih hrest ?_ h
        exact hchunk
      · split at h
        · cases h
        · cases h
          exact hchunk

theorem oneLine_parseUpdateFileChunk {n k : Nat} {allowMissingContext : Bool}
    {chunk : UpdateFileChunk} (hlines : ∀ l ∈ lines, '\n' ∉ l)
    (h : parseUpdateFileChunk lines n allowMissingContext = .ok (chunk, k)) :
    ∀ l ∈ chunk.newLines, '\n' ∉ l := by
  unfold parseUpdateFileChunk at h
  split at h
  · cases h
  · obtain ⟨⟨changeContext, startIndex⟩, -, h⟩ := Result.exists_of_bind_eq_ok h
    dsimp only at h
    split at h
    · cases h
    · obtain ⟨⟨chunk', parsedLines⟩, hchunk', h⟩ := Result.exists_of_bind_eq_ok h
      cases h
      exact oneLine_parseChunkLines (fun l hl => hlines l (List.mem_of_mem_drop hl)) (by simp)
        hchunk'

theorem oneLine_parseChunks {n fuel parsedLines k : Nat} {chunks' : List UpdateFileChunk}
    (hlines : ∀ l ∈ lines, '\n' ∉ l) (hchunks : ∀ chunk ∈ chunks, ∀ l ∈ chunk.newLines, '\n' ∉ l)
    (h : parseChunks n fuel lines chunks parsedLines = .ok (chunks', k)) :
    ∀ chunk ∈ chunks', ∀ l ∈ chunk.newLines, '\n' ∉ l := by
  induction fuel generalizing lines chunks parsedLines with
  | zero =>
    cases h
    exact hchunks
  | succ fuel ih =>
    cases lines with
    | nil =>
      cases h
      exact hchunks
    | cons line lines =>
      rw [parseChunks] at h
      split at h
      · exact ih (List.forall_mem_cons.1 hlines).2 hchunks h
      · split at h
        · cases h
          exact hchunks
        · obtain ⟨⟨chunk, chunkLines⟩, hchunk, h⟩ := Result.exists_of_bind_eq_ok h
          refine ih (fun l hl => hlines l (List.mem_of_mem_drop hl)) (fun c hc => ?_) h
          rcases List.mem_append.1 hc with hc | hc
          · exact hchunks c hc
          · rw [List.mem_singleton.1 hc]
            exact oneLine_parseUpdateFileChunk hlines hchunk

/-- The new lines of a hunk's chunks are lines. -/
def Hunk.OneLine : Hunk → Prop
  | .updateFile _ _ chunks => ∀ chunk ∈ chunks, ∀ l ∈ chunk.newLines, '\n' ∉ l
  | .addFile .. | .deleteFile _ => True

theorem oneLine_parseOneHunk {n k : Nat} {hunk : Hunk} (hlines : ∀ l ∈ lines, '\n' ∉ l)
    (h : parseOneHunk lines n = .ok (hunk, k)) : hunk.OneLine := by
  unfold parseOneHunk at h
  dsimp only at h
  split at h
  · cases h
    trivial
  split at h
  · cases h
    trivial
  split at h
  · obtain ⟨⟨chunks, parsedLines⟩, hchunks, h⟩ := Result.exists_of_bind_eq_ok h
    dsimp only at h
    split at h
    · cases h
    · cases h
      exact oneLine_parseChunks (fun l hl => hlines l (List.mem_of_mem_drop hl)) (by simp) hchunks
  · cases h

theorem oneLine_parseHunks {fuel n : Nat} {hunks : List Hunk} (hlines : ∀ l ∈ lines, '\n' ∉ l)
    (h : parseHunks fuel lines n = .ok hunks) : ∀ hunk ∈ hunks, hunk.OneLine := by
  induction fuel generalizing lines n hunks with
  | zero =>
    cases h
    simp
  | succ fuel ih =>
    cases lines with
    | nil =>
      cases h
      simp
    | cons line lines =>
      rw [parseHunks] at h
      obtain ⟨⟨hunk, hunkLines⟩, hhunk, h⟩ := Result.exists_of_bind_eq_ok h
      obtain ⟨hunks', hhunks', h⟩ := Result.exists_of_bind_eq_ok h
      cases h
      refine List.forall_mem_cons.2 ⟨oneLine_parseOneHunk hlines hhunk, ?_⟩
      exact ih (fun l hl => hlines l (List.mem_of_mem_drop hl)) hhunks'

theorem mem_of_checkPatchBoundariesLenient {e : ParseError}
    (h : checkPatchBoundariesLenient lines e = .ok ls) : ∀ l ∈ ls, l ∈ lines := by
  unfold checkPatchBoundariesLenient at h
  split at h
  · split at h
    · obtain ⟨_, -, h⟩ := Result.exists_of_bind_eq_ok h
      cases h
      exact fun l hl => List.mem_of_mem_tail (List.dropLast_subset _ hl)
    · cases h
  · cases h

/-- The chunks of a patch that parses bring lines only. -/
theorem oneLine_parsePatch {patch : Str} {args : ApplyPatchArgs}
    (h : parsePatch patch = .ok args) : ∀ hunk ∈ args.hunks, hunk.OneLine := by
  have hparsed {ls : List Str} {hunks : List Hunk} {n : Nat}
      (hls : ∀ l ∈ ls, l ∈ Str.lines (Str.trim patch))
      (hhunks : parseHunks n ls.tail.dropLast 2 = .ok hunks) : ∀ hunk ∈ hunks, hunk.OneLine :=
    oneLine_parseHunks (fun l hl => Str.notMem_of_mem_lines
      (hls l (List.mem_of_mem_tail (List.dropLast_subset _ hl)))) hhunks
  unfold parsePatch at h
  dsimp only at h
  split at h
  · obtain ⟨ls, hls, h⟩ := Result.exists_of_bind_eq_ok h
    obtain ⟨hunks, hhunks, h⟩ := Result.exists_of_bind_eq_ok h
    cases hls
    cases h
    exact hparsed (fun l hl => hl) hhunks
  · obtain ⟨ls, hls, h⟩ := Result.exists_of_bind_eq_ok h
    obtain ⟨hunks, hhunks, h⟩ := Result.exists_of_bind_eq_ok h
    cases h
    exact hparsed (mem_of_checkPatchBoundariesLenient hls) hhunks

end SheriMl.ApplyPatch
