import SheriMl.Tui.PasteRuns

/-!
# Keys as steps of a run

What a key, a flush or an Enter in a burst does to the composer comes down to pastes, typed text and
deletions: each of them is a run of the steps of `PastedComposer`, if no pasted text is the path of
an image (`handleInputBasicWithTime_run`, `handlePasteBurstFlush_run`, `handleBurstEnter_run`).
-/

namespace SheriMl.Tui

open Transition (Run)
open Str (IsBoundary)

/-- Steps lead from one composer to the other, whatever has been logged. -/
def RunsTo (p : ComposerPlatform) (c c' : ChatComposer) : Prop :=
  ∀ log, ∃ actions log', Run (PastedComposer.Step p) ⟨c, log⟩ actions ⟨c', log'⟩

variable {p : ComposerPlatform} {c c' c'' : ChatComposer} {event : KeyEvent} {now : Nat}

namespace RunsTo

theorem refl (p : ComposerPlatform) (c : ChatComposer) : RunsTo p c c :=
  fun log => ⟨[], log, .nil _⟩

theorem trans (h : RunsTo p c c') (h' : RunsTo p c' c'') : RunsTo p c c'' := by
  intro log
  obtain ⟨actions, mid, hrun⟩ := h log
  obtain ⟨actions', log', hrun'⟩ := h' mid
  exact ⟨actions ++ actions', log', hrun.append hrun'⟩

theorem burst (p : ComposerPlatform) (c : ChatComposer) (pasteBurst : PasteBurst) :
    RunsTo p c { c with pasteBurst } :=
  fun log => ⟨[.burst pasteBurst], log, .single ⟨rfl, trivial⟩⟩

theorem insertStr (p : ComposerPlatform) (c : ChatComposer) (text : Str) :
    RunsTo p c (c.insertStr text) :=
  fun log => ⟨[.insertStr text], log, .single ⟨rfl, trivial⟩⟩

theorem inputAndReconcile (p : ComposerPlatform) (c : ChatComposer) (event : KeyEvent) :
    RunsTo p c (c.inputAndReconcile p event) :=
  fun log => ⟨[.key event], log, .single ⟨rfl, trivial⟩⟩

theorem nonAsciiKey (p : ComposerPlatform) (c : ChatComposer) (event : KeyEvent) :
    RunsTo p c { c with textarea := c.textarea.input p.toPlatform event }.retainPendingPastes :=
  fun log => ⟨[.nonAsciiKey event], log, .single ⟨rfl, trivial⟩⟩

theorem grab {range : Range} (h : range.Aligned c.textarea.text) :
    RunsTo p c { c with textarea := c.textarea.replaceRange range [] } :=
  fun log => ⟨[.grab range], log, .single ⟨rfl, h⟩⟩

theorem handlePaste (himage : ∀ pasted, p.pastedImage pasted = none) (c : ChatComposer)
    (pasted : Str) : RunsTo p c (c.handlePaste p pasted) :=
  fun _ => ⟨[.paste pasted], _, .single ⟨rfl, .inr (.inr (himage _))⟩⟩

end RunsTo

namespace ChatComposer

variable (himage : ∀ pasted, p.pastedImage pasted = none)

include himage

theorem handlePasteBurstFlush_run (c : ChatComposer) (now : Nat) :
    RunsTo p c (c.handlePasteBurstFlush p now) := by
  unfold handlePasteBurstFlush
  split
  · next pasted b _ => exact (RunsTo.burst p c b).trans (.handlePaste himage _ pasted)
  · next ch b _ => exact (RunsTo.burst p c b).trans (.insertStr p _ [ch])
  · next b _ => exact .burst p c b

theorem flushBeforeModifiedInput_run (c : ChatComposer) :
    RunsTo p c (c.flushBeforeModifiedInput p) := by
  unfold flushBeforeModifiedInput
  split
  · next pasted b _ => exact (RunsTo.burst p c b).trans (.handlePaste himage _ pasted)
  · next b _ => exact .burst p c b

theorem inputBasic_run (c : ChatComposer) (event : KeyEvent) :
    RunsTo p c (c.inputBasic p event) := by
  have hkey (c : ChatComposer) := RunsTo.inputAndReconcile p c event
  have hflush := flushBeforeModifiedInput_run himage c
  unfold inputBasic
  cases hcode : event.code with
  | char ch =>
    dsimp only
    split
    · exact (hkey c).trans (.burst p _ _)
    · exact hkey c
  | enter => exact hkey c
  | _ => exact (hflush.trans (hkey _)).trans (.burst p _ _)

omit himage in
/-- What is taken back are the last characters before the cursor. -/
theorem beginBuffer_run {retroChars : Nat} {ch : Char}
    (h : c.beginBuffer retroChars ch now = some c') : RunsTo p c c' := by
  have hpre : c.textBeforeCursor <+: c.textarea.text := Str.takeBytes_isPrefix _ _
  unfold beginBuffer at h
  dsimp only at h
  split at h
  · next grab b hdecided =>
    obtain rfl := Option.some.inj h
    unfold PasteBurst.decideBeginBuffer at hdecided
    dsimp only at hdecided
    split at hdecided
    · obtain rfl := Option.some.inj (Prod.mk.inj hdecided).1
      split
      · exact .burst p c _
      · refine RunsTo.trans (.grab ?_) (.burst p _ _)
        obtain ⟨rest, hrest⟩ := hpre
        have hsplit := List.take_append_drop (c.textBeforeCursor.length - retroChars)
          c.textBeforeCursor
        have hstart := Str.isBoundary_append
          (c.textBeforeCursor.take (c.textBeforeCursor.length - retroChars))
          (c.textBeforeCursor.drop (c.textBeforeCursor.length - retroChars))
        rw [hsplit] at hstart
        refine ⟨?_, ?_, hstart.le⟩
        · rw [← hrest]
          exact hstart.append_right rest
        · rw [← hrest]
          exact Str.isBoundary_append _ rest
    · cases (Prod.mk.inj hdecided).1
  · cases h

theorem insertNonAscii_run (c : ChatComposer) (event : KeyEvent) :
    RunsTo p c (c.insertNonAscii p event) :=
  (flushBeforeModifiedInput_run himage c).trans (.nonAsciiKey p _ event)

theorem handleAsciiChar_run (c : ChatComposer) (ch : Char) (event : KeyEvent) (now : Nat) :
    RunsTo p c (c.handleAsciiChar p ch event now) := by
  unfold handleAsciiChar
  split
  · exact .burst p c _
  · exact .burst p c _
  · exact .burst p c _
  · next retroChars b _ =>
    have hburst := RunsTo.burst p c b
    split
    · next hbegin => exact hburst.trans (beginBuffer_run hbegin)
    · exact (hburst.trans (flushBeforeModifiedInput_run himage _)).trans
        (inputBasic_run himage _ event)

theorem handleNonAsciiChar_run (c : ChatComposer) (ch : Char) (event : KeyEvent) (now : Nat) :
    RunsTo p c (c.handleNonAsciiChar p ch event now) := by
  unfold handleNonAsciiChar
  split
  · exact .nonAsciiKey p c event
  · split
    · exact .burst p c _
    · have hflush := flushBeforeModifiedInput_run himage c
      dsimp only
      refine hflush.trans ?_
      generalize c.flushBeforeModifiedInput p = c
      split
      · exact .burst p c _
      · next retroChars b _ =>
        have hburst := RunsTo.burst p c b
        split
        · next hbegin => exact hburst.trans (beginBuffer_run hbegin)
        · exact hburst.trans (insertNonAscii_run himage _ event)
      · exact (RunsTo.burst p c _).trans (insertNonAscii_run himage _ event)

/-- A key is a run of steps. -/
theorem handleInputBasicWithTime_run (c : ChatComposer) (event : KeyEvent) (now : Nat) :
    RunsTo p c (c.handleInputBasicWithTime p event now) := by
  rw [handleInputBasicWithTime]
  refine (handlePasteBurstFlush_run himage c now).trans ?_
  generalize c.handlePasteBurstFlush p now = c
  cases hcode : event.code with
  | char ch =>
    dsimp only
    split
    · split
      · exact handleAsciiChar_run himage c ch event now
      · exact handleNonAsciiChar_run himage c ch event now
    · exact (flushBeforeModifiedInput_run himage c).trans (inputBasic_run himage _ event)
  | enter =>
    dsimp only
    split
    · exact .burst p c _
    · exact inputBasic_run himage c event
  | _ => exact inputBasic_run himage c event

omit himage in
/-- A character typed into an empty composer. -/
theorem handleInputBasicWithTime_run_letter :
    RunsTo TiedComposer.charComposerPlatform (.new false)
      ((ChatComposer.new false).handleInputBasicWithTime TiedComposer.charComposerPlatform
        ⟨.char 'x', .none⟩ 0) :=
  handleInputBasicWithTime_run (fun _ => rfl) _ _ _

omit himage in
theorem handleBurstEnter_run (h : c.handleBurstEnter now = some c') : RunsTo p c c' := by
  unfold handleBurstEnter at h
  split at h
  · obtain rfl := Option.some.inj h
    exact .burst p c _
  · split at h
    · obtain rfl := Option.some.inj h
      exact (RunsTo.insertStr p c _).trans (.burst p _ _)
    · cases h

end ChatComposer

end SheriMl.Tui
