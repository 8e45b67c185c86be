import SheriMl.Lib.Transition
import SheriMl.Tui.ImageLabels
import SheriMl.Tui.TextAreaEnd

/-!
# Typing through the paste burst

What has been typed is in the text area, in the burst's buffer or held back as its first character.
The text area displays what it has got (`Displays`), behind it come the buffer and the held
character (`PasteBurst.waiting`), and together they are what was typed, in order (`Keeps`).
Characters that the burst takes back are at the plain end of the text, because it has counted no
more of them than there are there (`PasteBurst.Counted`). `displays_of_run`: of what is typed
nothing is lost, comes twice or changes places. A paste need not be displayed as it was typed
(`not_verbatim`).
-/

namespace SheriMl.Tui

open List

open Transition (Run)

/-! ## What a text stands for -/

/-- A text that shows what was typed, piece by piece and in order: as it is, with the line ends of a
paste, or, for a long paste and the path of an image, by a placeholder. -/
inductive Displays (p : ComposerPlatform) (pastes : List (Str × Str))
    (images : List AttachedImage) : Str → Str → Prop
  | nil : Displays p pastes images [] []
  | typed {shown meant : Str} (s : Str) : Displays p pastes images shown meant →
      Displays p pastes images (shown ++ s) (meant ++ s)
  | pasted {shown meant : Str} (s : Str) : Displays p pastes images shown meant →
      Displays p pastes images (shown ++ normalizePasted s) (meant ++ s)
  | large {shown meant placeholder : Str} (s : Str) : Displays p pastes images shown meant →
      (normalizePasted s).length > largePasteCharThreshold →
      (placeholder, normalizePasted s) ∈ pastes →
      Displays p pastes images (shown ++ placeholder) (meant ++ s)
  | image {shown meant : Str} {img : AttachedImage} (s : Str) :
      Displays p pastes images shown meant → p.imagePasteEnabled = true →
      p.pastedImage (normalizePasted s) = some img.path → img ∈ images →
      Displays p pastes images (shown ++ img.placeholder ++ " ") (meant ++ s)

section Displays

variable {p : ComposerPlatform} {pastes pastes' : List (Str × Str)}
variable {images images' : List AttachedImage} {shown meant text : Str}

theorem crlfToLf_eq {s : Str} (h : '\r' ∉ s) : crlfToLf s = s := by
  fun_induction crlfToLf s with
  | case1 s ih => simp at h
  | case2 c s _ ih => rw [ih fun hs => h (mem_cons_of_mem c hs)]
  | case3 => rfl

theorem normalizePasted_eq {s : Str} (h : '\r' ∉ s) : normalizePasted s = s := by
  rw [normalizePasted, crlfToLf_eq h]
  refine (map_congr_left fun c hc => ?_).trans (map_id s)
  exact if_neg fun (hcr : c = '\r') => h (hcr ▸ hc)

namespace Displays

theorem mono (h : Displays p pastes images shown meant) (hpastes : pastes ⊆ pastes')
    (himages : images ⊆ images') : Displays p pastes' images' shown meant := by
  induction h with
  | nil => exact .nil
  | typed s _ ih => exact ih.typed s
  | pasted s _ ih => exact ih.pasted s
  | large s _ hlong hmem ih => exact ih.large s hlong (hpastes hmem)
  | image s _ henabled hpath hmem ih => exact ih.image s henabled hpath (himages hmem)

/-- The pastes whose placeholders are in a text that contains this one are enough. -/
theorem retain (h : Displays p pastes images shown meant) (hin : shown <:+: text) :
    Displays p (pastes.filter fun paste => Str.contains text paste.1) images shown meant := by
  induction h with
  | nil => exact .nil
  | typed s _ ih => exact (ih ((prefix_append _ _).isInfix.trans hin)).typed s
  | pasted s _ ih => exact (ih ((prefix_append _ _).isInfix.trans hin)).pasted s
  | large s _ hlong hmem ih =>
    have hfound := Str.contains_iff.2 ((suffix_append _ _).isInfix.trans hin)
    exact (ih ((prefix_append _ _).isInfix.trans hin)).large s hlong
      (mem_filter.2 ⟨hmem, hfound⟩)
  | image s _ henabled hpath hmem ih =>
    rw [append_assoc] at hin
    exact (ih ((prefix_append _ _).isInfix.trans hin)).image s henabled hpath hmem

/-- Without line ends to change, long pastes and images a text is what was typed. -/
theorem eq_of_plain (h : Displays p pastes images shown meant) (hcr : '\r' ∉ meant)
    (hlen : meant.length ≤ largePasteCharThreshold) (himages : p.imagePasteEnabled = false) :
    shown = meant := by
  induction h with
  | nil => rfl
  | typed s _ ih =>
    rw [mem_append, not_or] at hcr
    rw [length_append] at hlen
    rw [ih hcr.1 (by omega)]
  | pasted s _ ih =>
    rw [mem_append, not_or] at hcr
    rw [length_append] at hlen
    rw [ih hcr.1 (by omega), normalizePasted_eq hcr.2]
  | large s _ hlong _ _ =>
    rw [mem_append, not_or] at hcr
    rw [length_append] at hlen
    rw [normalizePasted_eq hcr.2] at hlong
    omega
  | image s _ henabled _ _ _ =>
    rw [himages] at henabled
    exact absurd henabled Bool.false_ne_true

end Displays

end Displays

/-! ## What a burst has not given out -/

namespace PasteBurst

variable {windows : Bool} {b : PasteBurst} {n m now : Nat} {ch : Char} {s : Str}

def waiting (b : PasteBurst) : Str := b.buffer ++ (b.pendingFirstChar.map Prod.fst).toList

/-- Behind `n` characters that it could take back: outside of a burst it has no buffer, and it has
counted no more characters than it could take back or holds. -/
structure Counted (b : PasteBurst) (n : Nat) : Prop where
  buffer : b.active = false → b.buffer = []
  held : ∀ ch t, b.pendingFirstChar = some (ch, t) →
    b.active = false ∧ b.lastPlainCharTime = some t
  timed : b.isActive = true → b.lastPlainCharTime.isSome = true
  count : b.active = false →
    b.consecutivePlainCharBurst ≤ n + (b.pendingFirstChar.map Prod.fst).toList.length

theorem counted_default (n : Nat) : default.Counted n :=
  ⟨fun _ => rfl, fun _ _ h => absurd h (by simp [default]), fun h => absurd h (by decide),
    fun _ => Nat.zero_le _⟩

theorem isActive_eq_false_iff : b.isActive = false ↔
    b.active = false ∧ b.buffer = [] ∧ b.pendingFirstChar = none := by
  simp [isActive, isActiveInternal, and_assoc]

theorem waiting_of_not_isActive (h : b.isActive = false) : b.waiting = [] := by
  obtain ⟨-, hbuffer, hpending⟩ := isActive_eq_false_iff.1 h
  simp [waiting, hbuffer, hpending]

@[simp] theorem waiting_extendWindow : (b.extendWindow now).waiting = b.waiting := rfl

theorem Counted.mono (h : b.Counted n) (hnm : n ≤ m) : b.Counted m :=
  ⟨h.buffer, h.held, h.timed, fun ha => (h.count ha).trans (Nat.add_le_add_right hnm _)⟩

theorem Counted.extendWindow (h : b.Counted n) (now : Nat) : (b.extendWindow now).Counted n :=
  ⟨h.buffer, h.held, h.timed, h.count⟩

/-- Outside of a burst there is no buffer. -/
theorem Counted.isActiveInternal_eq (h : b.Counted n) : b.isActiveInternal = b.active := by
  cases hactive : b.active with
  | true => simp [isActiveInternal, hactive]
  | false => simp [isActiveInternal, hactive, h.buffer hactive]

@[simp] theorem notePlainChar_active : (b.notePlainChar windows now).active = b.active := rfl

@[simp] theorem notePlainChar_buffer : (b.notePlainChar windows now).buffer = b.buffer := rfl

@[simp] theorem notePlainChar_pendingFirstChar :
    (b.notePlainChar windows now).pendingFirstChar = b.pendingFirstChar := rfl

@[simp] theorem notePlainChar_lastPlainCharTime :
    (b.notePlainChar windows now).lastPlainCharTime = some now := rfl

theorem notePlainChar_count_le (windows : Bool) (b : PasteBurst) (now : Nat) :
    (b.notePlainChar windows now).consecutivePlainCharBurst ≤
    b.consecutivePlainCharBurst + 1 := by
  simp only [notePlainChar, succBurst]
  split
  · split <;> omega
  · omega

/-- A burst takes another character into its buffer. -/
theorem Counted.append (h : b.Counted n) (now : Nat) (hactive : b.active = true)
    (htimed : b.lastPlainCharTime.isSome = true) (s : Str) :
    ({ b with buffer := b.buffer ++ s }.extendWindow now).waiting = b.waiting ++ s ∧
      ({ b with buffer := b.buffer ++ s }.extendWindow now).Counted n := by
  have hpending : b.pendingFirstChar = none := by
    cases hpending : b.pendingFirstChar with
    | none => rfl
    | some held =>
      have hinactive := (h.held held.1 held.2 hpending).1
      rw [hactive] at hinactive
      exact absurd hinactive (by decide)
  have hne : ¬ b.active = false := by simp [hactive]
  refine ⟨by simp [waiting, hpending, PasteBurst.extendWindow], fun ha => absurd ha hne, ?_,
    fun _ => htimed, fun ha => absurd ha hne⟩
  intro ch t ht
  exact absurd (hpending.symm.trans ht) (by simp)

/-- What the detector makes of a character. A character that it holds back is fresh. -/
theorem Counted.onPlainChar (h : b.Counted n) (ch : Char) (hfresh : ∀ held t,
    b.pendingFirstChar = some (held, t) → now - t ≤ pasteBurstCharInterval windows) :
    (∃ d b', b.onPlainChar windows ch now = (d, b') ∧
        (d = .bufferAppend ∨ d = .beginBufferFromPending) ∧
        (b'.appendCharToBuffer ch now).waiting = b.waiting ++ [ch] ∧
        (b'.appendCharToBuffer ch now).Counted n) ∨
      (∃ b', b.onPlainChar windows ch now = (.retainFirstChar, b') ∧
        b'.waiting = b.waiting ++ [ch] ∧ b'.Counted n) ∨
      ∃ r b', b.onPlainChar windows ch now = (.beginBuffer r, b') ∧ r ≤ n ∧ b.waiting = [] ∧
        b'.isActive = false ∧ b'.lastPlainCharTime = some now ∧ b'.Counted (n + 1) := by
  have hcount := notePlainChar_count_le windows b now
  have hnoted : b.active = true → (b.notePlainChar windows now).Counted n := fun hactive =>
    ⟨fun ha => h.buffer ha, fun c t ht => absurd ((h.held c t ht).1) (by simp [hactive]),
      fun _ => rfl, fun ha => absurd hactive (by
        rw [notePlainChar_active] at ha
        simp [ha])⟩
  unfold PasteBurst.onPlainChar
  generalize hb : b.notePlainChar windows now = noted at hcount hnoted
  have hactive : noted.active = b.active := by rw [← hb, notePlainChar_active]
  have hbuffer : noted.buffer = b.buffer := by rw [← hb, notePlainChar_buffer]
  have hpending : noted.pendingFirstChar = b.pendingFirstChar := by
    rw [← hb, notePlainChar_pendingFirstChar]
  have htime : noted.lastPlainCharTime = some now := by rw [← hb, notePlainChar_lastPlainCharTime]
  have hwaiting : noted.waiting = b.waiting := by rw [waiting, hbuffer, hpending, waiting]
  cases hburst : b.active with
  | true =>
    left
    have happend := ((hnoted hburst).extendWindow now).append now
      (hactive.trans hburst) (by simp [PasteBurst.extendWindow, htime]) [ch]
    have hkept : (noted.extendWindow now).waiting = b.waiting := hwaiting
    rw [hkept] at happend
    refine ⟨.bufferAppend, noted.extendWindow now, ?_, .inl rfl, happend⟩
    simp [hactive, hburst]
  | false =>
    have hempty := h.buffer hburst
    cases hheld : b.pendingFirstChar with
    | some held =>
      left
      obtain ⟨held, t⟩ := held
      have hle := hfresh held t hheld
      have hstart : ({ noted with
          active := true
          pendingFirstChar := none
          buffer := noted.buffer ++ [held] }.extendWindow now).Counted n :=
        ⟨fun ha => absurd ha (by simp [PasteBurst.extendWindow]),
          fun _ _ ht => absurd ht (by simp [PasteBurst.extendWindow]),
          fun _ => by simp [PasteBurst.extendWindow, htime],
          fun ha => absurd ha (by simp [PasteBurst.extendWindow])⟩
      have happend := hstart.append now rfl (by simp [PasteBurst.extendWindow, htime]) [ch]
      refine ⟨.beginBufferFromPending, _, ?_, .inr rfl, ?_, happend.2⟩
      · simp [hactive, hburst, freshPending, hpending, hheld, hle]
      · refine happend.1.trans ?_
        simp [waiting, PasteBurst.extendWindow, hbuffer, hempty, hheld]
    | none =>
      right
      have hle := h.count hburst
      rw [hheld] at hle
      have hnone : b.waiting = [] := by simp [waiting, hempty, hheld]
      simp only [Option.map_none, Option.toList_none, length_nil] at hle
      by_cases hmany : noted.consecutivePlainCharBurst ≥ pasteBurstMinChars
      · right
        refine ⟨noted.consecutivePlainCharBurst - 1, noted, ?_, by omega, hnone, ?_, htime, ?_⟩
        · simp [hactive, hburst, freshPending, hpending, hheld, hmany]
        · exact isActive_eq_false_iff.2 ⟨hactive.trans hburst, hbuffer.trans hempty,
            hpending.trans hheld⟩
        · refine ⟨fun _ => hbuffer.trans hempty, fun c t ht => ?_, fun _ => by simp [htime],
            fun _ => ?_⟩
          · exact absurd ((hpending.trans hheld).symm.trans ht) (by simp)
          · rw [hpending, hheld]
            simp only [Option.map_none, Option.toList_none, length_nil]
            omega
      · left
        refine ⟨{ noted with pendingFirstChar := some (ch, now) }, ?_, ?_, ?_⟩
        · simp [hactive, hburst, freshPending, hpending, hheld, hmany]
        · simp [waiting, hbuffer, hempty, hheld]
        · refine ⟨fun _ => hbuffer.trans hempty, fun c t ht => ?_, fun _ => by simp [htime],
            fun _ => ?_⟩
          · simp only [Option.some.injEq, Prod.mk.injEq] at ht
            exact ⟨hactive.trans hburst, by rw [htime, ht.2]⟩
          · simp only [Option.map_some, Option.toList_some, length_singleton]
            omega

/-- Where nothing waits, a character is not held back but counted. -/
theorem Counted.onPlainCharNoHold (h : b.Counted n) (windows : Bool) (now : Nat)
    (hwaits : b.isActive = false) :
    ∃ b', b'.isActive = false ∧ b'.lastPlainCharTime = some now ∧ b'.Counted (n + 1) ∧
      (b.onPlainCharNoHold windows now = (none, b') ∨
        ∃ r, r ≤ n ∧ b.onPlainCharNoHold windows now = (some (.beginBuffer r), b')) := by
  obtain ⟨hactive, hbuffer, hpending⟩ := isActive_eq_false_iff.1 hwaits
  have hcount := notePlainChar_count_le windows b now
  have hle := h.count hactive
  rw [hpending] at hle
  simp only [Option.map_none, Option.toList_none, length_nil] at hle
  refine ⟨b.notePlainChar windows now, ?_, rfl,
    ⟨fun _ => hbuffer, ?_, fun _ => rfl, fun _ => ?_⟩, ?_⟩
  · exact isActive_eq_false_iff.2 ⟨hactive, hbuffer, hpending⟩
  · intro c t ht
    rw [notePlainChar_pendingFirstChar, hpending] at ht
    exact absurd ht (by simp)
  · rw [notePlainChar_pendingFirstChar, hpending]
    simp only [Option.map_none, Option.toList_none, length_nil]
    omega
  · unfold PasteBurst.onPlainCharNoHold
    simp only [notePlainChar_active, hactive, Bool.false_eq_true, if_false]
    split
    · exact .inr ⟨_, by omega, rfl⟩
    · exact .inl rfl

theorem Counted.tryAppendCharIfActive (h : b.Counted n) (ch : Char) (now : Nat) :
    (∃ b', b.tryAppendCharIfActive ch now = (true, b') ∧ b'.waiting = b.waiting ++ [ch] ∧
      b'.Counted n) ∨
      b.tryAppendCharIfActive ch now = (false, b) := by
  unfold PasteBurst.tryAppendCharIfActive
  rw [h.isActiveInternal_eq]
  cases hactive : b.active with
  | true =>
    have htimed := h.timed (by simp [isActive, isActiveInternal, hactive])
    obtain ⟨hwaiting, hcounted⟩ := h.append now hactive htimed [ch]
    exact .inl ⟨_, rfl, hwaiting, hcounted⟩
  | false => exact .inr rfl

/-- What a tick gives out. What it leaves held back is fresh. -/
theorem Counted.flushIfDue (h : b.Counted n) (windows : Bool) (now : Nat) :
    (∃ b', b.flushIfDue windows now = (.paste b.waiting, b')) ∨
      (∃ ch b', b.flushIfDue windows now = (.typed ch, b') ∧ b.waiting = [ch] ∧
        b'.isActive = false ∧ b'.Counted (n + 1)) ∨
      b.flushIfDue windows now = (.none, b) ∧ (∀ held t, b.pendingFirstChar = some (held, t) →
        now - t ≤ pasteBurstCharInterval windows) := by
  unfold PasteBurst.flushIfDue
  rw [h.isActiveInternal_eq]
  cases hactive : b.active with
  | true =>
    have hpending : b.pendingFirstChar = none := by
      cases hpending : b.pendingFirstChar with
      | none => rfl
      | some held =>
        have hinactive := (h.held held.1 held.2 hpending).1
        rw [hactive] at hinactive
        exact absurd hinactive (by decide)
    have hwaiting : b.waiting = b.buffer := by simp [waiting, hpending]
    obtain ⟨t, ht⟩ := Option.isSome_iff_exists.1
      (h.timed (by simp [isActive, isActiveInternal, hactive]))
    by_cases hdue : now - t > pasteBurstActiveIdleTimeout windows
    · left
      refine ⟨{ b with active := false, buffer := [] }, ?_⟩
      simp [ht, hdue, hwaiting]
    · right
      right
      refine ⟨by simp [ht, hdue], fun held t' ht' => ?_⟩
      rw [hpending] at ht'
      exact absurd ht' (by simp)
  | false =>
    have hbuffer := h.buffer hactive
    right
    cases hpending : b.pendingFirstChar with
    | none =>
      right
      simp
    | some held =>
      obtain ⟨ch, t⟩ := held
      have htime := (h.held ch t hpending).2
      have hcount := h.count hactive
      rw [hpending] at hcount
      simp only [Option.map_some, Option.toList_some, length_singleton] at hcount
      by_cases hdue : now - t > pasteBurstCharInterval windows
      · left
        refine ⟨ch, { b with pendingFirstChar := none }, ?_, ?_, ?_, ?_⟩
        · simp [htime, hdue, hactive]
        · simp [waiting, hbuffer, hpending]
        · exact isActive_eq_false_iff.2 ⟨hactive, hbuffer, rfl⟩
        · exact ⟨fun _ => hbuffer, fun _ _ ht => absurd ht (by simp), fun _ => by simp [htime],
            fun _ => hcount⟩
      · right
        refine ⟨by simp [htime, hdue], fun held t' ht => ?_⟩
        obtain ⟨rfl, rfl⟩ := Prod.mk.inj (Option.some.inj ht)
        omega

/-- A late tick gives out what waits. -/
theorem flushIfDue_ne_none {t : Nat} (hactive : b.isActive = true)
    (ht : b.lastPlainCharTime = some t) (hlate : now > t + pasteBurstActiveIdleTimeout windows +
      pasteBurstCharInterval windows) : (b.flushIfDue windows now).1 ≠ .none := by
  unfold PasteBurst.flushIfDue
  cases hinternal : b.isActiveInternal with
  | true =>
    have hdue : now - t > pasteBurstActiveIdleTimeout windows := by omega
    simp [ht, hdue]
  | false =>
    have hdue : now - t > pasteBurstCharInterval windows := by omega
    rw [isActive, hinternal, Bool.false_or] at hactive
    obtain ⟨held, hheld⟩ := Option.isSome_iff_exists.1 hactive
    simp [ht, hdue, hheld]

theorem flushBeforeModifiedInput_eq :
    (b.isActive = false ∧ b.flushBeforeModifiedInput = (none, b)) ∨
      ∃ b', b.flushBeforeModifiedInput = (some b.waiting, b') := by
  unfold PasteBurst.flushBeforeModifiedInput
  cases hactive : b.isActive with
  | false => exact .inl ⟨rfl, rfl⟩
  | true =>
    right
    refine ⟨{ b with active := false, buffer := [], pendingFirstChar := none }, ?_⟩
    cases hpending : b.pendingFirstChar with
    | none => simp [waiting, hpending]
    | some held => simp [waiting, hpending]

/-- A newline goes into the buffer, which is not behind a character held back. -/
theorem Counted.appendNewline (h : b.Counted n) (now : Nat) (hactive : b.isActive = true)
    (hpending : b.pendingFirstChar = none) :
    (b.appendNewlineIfActive now).2.waiting = b.waiting ++ ['\n'] ∧
      (b.appendNewlineIfActive now).2.Counted n := by
  have hburst : b.active = true := by
    rw [isActive, hpending, h.isActiveInternal_eq] at hactive
    simpa using hactive
  have htimed := h.timed hactive
  simpa [PasteBurst.appendNewlineIfActive, hactive] using h.append now hburst htimed ['\n']

theorem clearWindowAfterNonChar_spec (h : b.isActive = false) (n : Nat) :
    b.clearWindowAfterNonChar.isActive = false ∧ b.clearWindowAfterNonChar.Counted n := by
  have hbuffer := (isActive_eq_false_iff.1 h).2.1
  have hnone : b.clearWindowAfterNonChar.isActive = false :=
    isActive_eq_false_iff.2 ⟨rfl, hbuffer, rfl⟩
  refine ⟨hnone, fun _ => hbuffer, fun _ _ ht => absurd ht (by simp [clearWindowAfterNonChar]),
    fun ha => ?_, fun _ => Nat.zero_le _⟩
  rw [hnone] at ha
  exact absurd ha Bool.false_ne_true

end PasteBurst

/-! ## Keys that type -/

/-- Modified: a character with Ctrl or Alt, or a key that is neither a character nor Enter. -/
def KeyEvent.Modified (p : ComposerPlatform) (event : KeyEvent) : Prop :=
  match event.code with
  | .char _ => hasCtrlOrAlt p.windows event.modifiers = true
  | .enter => False
  | _ => True

/-- What a key types: what the text area inserts for it, or nothing, if it is modified and the text
area has no use for it. -/
inductive KeyEvent.Types (p : ComposerPlatform) (event : KeyEvent) : Str → Prop
  | inserts {s : Str} (h : ∀ a, event.op p.toPlatform a = some (.insertStr s)) : Types p event s
  | unbound (hmod : event.Modified p) (h : ∀ a, event.op p.toPlatform a = none) : Types p event []

namespace TextArea.EndsPlain

variable {p : ComposerPlatform} {a a' : TextArea} {front plain plain' s : Str} {event : KeyEvent}

theorem input (h : a.EndsPlain front plain) (htypes : event.Types p s) :
    (a.input p.toPlatform event).EndsPlain front (plain ++ s) ∧
      (a.input p.toPlatform event).elements = a.elements := by
  cases htypes with
  | inserts hop =>
    simp only [TextArea.input, hop a, TextArea.apply]
    exact h.insertStr s
  | unbound _ hop =>
    simp only [TextArea.input, hop a, append_nil]
    exact ⟨h, trivial⟩

theorem elementPayloads (h : a.EndsPlain front plain) : a.elementPayloads =
    a.elements.filterMap fun e => Str.get? front e.range.start e.range.stop := by
  refine filterMap_congr fun e he => ?_
  rw [h.text]
  exact Str.get?_append_of_le (h.elements e he).2

end TextArea.EndsPlain

theorem KeyEvent.charOp_insertStr {p : Platform} {a : TextArea} {ch : Char} {mods : KeyModifiers}
    {s : Str} (h : charOp p a ch mods = some (.insertStr s)) :
    s = [ch] ∨ mods = .onlyControl := by
  have hne {o : Op} (hop : o ≠ .insertStr s) : some o ≠ some (.insertStr s) :=
    fun heq => hop (Option.some.inj heq)
  unfold charOp at h
  iterate 4
    rcases ite_eq_iff.1 h with ⟨-, heq⟩ | ⟨-, h⟩
    · exact absurd heq (hne Op.noConfusion)
  rcases ite_eq_iff.1 h with ⟨-, heq⟩ | ⟨-, h⟩
  · exact .inl (Op.insertStr.inj (Option.some.inj heq)).symm
  rcases ite_eq_iff.1 h with ⟨hnewline, -⟩ | ⟨-, h⟩
  · exact .inr hnewline.2
  rcases ite_eq_iff.1 h with ⟨-, heq⟩ | ⟨-, h⟩
  · exact absurd heq (hne Op.noConfusion)
  rcases ite_eq_iff.1 h with ⟨-, heq⟩ | ⟨-, h⟩
  · exact .inl (Op.insertStr.inj (Option.some.inj heq)).symm
  iterate 14
    rcases ite_eq_iff.1 h with ⟨-, heq⟩ | ⟨-, h⟩
    · exact absurd heq (hne Op.noConfusion)
  exact absurd h.symm (Option.some_ne_none _)

theorem KeyEvent.Types.eq_of_char {p : ComposerPlatform} {event : KeyEvent} {s : Str} {ch : Char}
    (h : event.Types p s) (hcode : event.code = .char ch)
    (hplain : hasCtrlOrAlt p.windows event.modifiers = false) : s = [ch] := by
  cases h with
  | inserts hop =>
    have hchar := hop .new
    unfold KeyEvent.op at hchar
    rw [hcode] at hchar
    obtain hs | hmods := KeyEvent.charOp_insertStr hchar
    · exact hs
    · rw [hmods] at hplain
      exact absurd hplain (by simp [hasCtrlOrAlt, KeyModifiers.onlyControl, KeyModifiers.isAltgr])
  | unbound hmod _ =>
    unfold KeyEvent.Modified at hmod
    rw [hcode] at hmod
    exact absurd (hplain.symm.trans hmod) Bool.false_ne_true

namespace ChatComposer

/-! ## The text area and what waits behind it -/

/-- The text before the plain end stands for `meant`. -/
structure Laid (p : ComposerPlatform) (disabled : Bool) (c : ChatComposer)
    (front plain meant : Str) : Prop where
  ends : c.textarea.EndsPlain front plain
  displays : Displays p c.pendingPastes c.attachedImages front meant
  disabled_eq : c.disablePasteBurst = disabled

/-- What was typed is in the text area, or waits to be put behind it. -/
structure Kept (p : ComposerPlatform) (disabled : Bool) (c : ChatComposer) (typed : Str)
    (front plain meant : Str) : Prop extends Laid p disabled c front plain meant where
  typed : typed = meant ++ plain ++ c.pasteBurst.waiting
  counted : c.pasteBurst.Counted plain.length
  idle : disabled = true → c.pasteBurst.isActive = false

def Keeps (p : ComposerPlatform) (disabled : Bool) (c : ChatComposer) (typed : Str) : Prop :=
  ∃ front plain meant, Kept p disabled c typed front plain meant

variable {p : ComposerPlatform} {disabled : Bool} {c : ChatComposer} {event : KeyEvent}
variable {typed front plain meant s : Str} {b : PasteBurst} {ch : Char} {now : Nat}

theorem new_keeps (p : ComposerPlatform) (disabled : Bool) : Keeps p disabled (new disabled) [] :=
  ⟨[], [], [], ⟨⟨TextArea.new_endsPlain, .nil, rfl⟩, rfl, PasteBurst.counted_default 0,
    fun _ => rfl⟩⟩

namespace Laid

variable (h : Laid p disabled c front plain meant)

include h

theorem withBurst (b : PasteBurst) :
    Laid p disabled { c with pasteBurst := b } front plain meant :=
  ⟨h.ends, h.displays, h.disabled_eq⟩

theorem settle : Laid p disabled c (front ++ plain) [] (meant ++ plain) :=
  ⟨h.ends.front_append plain (append_nil plain).symm, h.displays.typed plain, h.disabled_eq⟩

theorem insertStr (s : Str) : Laid p disabled (c.insertStr s) front (plain ++ s) meant :=
  ⟨(h.ends.insertStr s).1, h.displays, h.disabled_eq⟩

theorem insertLargePaste (hlong : (normalizePasted s).length > largePasteCharThreshold) :
    ∃ front', Laid p disabled (c.insertLargePaste (normalizePasted s)) front' []
      (meant ++ plain ++ s) := by
  have hne : (c.nextLargePastePlaceholder (normalizePasted s).length).1 ≠ [] := by
    simp only [nextLargePastePlaceholder]
    split
    · exact fun hnil => absurd (append_eq_nil_iff.1 hnil).2 (by decide)
    · intro hnil
      have hbase := (append_eq_nil_iff.1 (append_eq_nil_iff.1 hnil).1).1
      exact absurd (append_eq_nil_iff.1 hbase).2 (by decide)
  refine ⟨_, h.ends.insertElement hne, ?_, h.disabled_eq⟩
  have hmono := (h.displays.typed plain).mono
    (subset_append_left c.pendingPastes
      [((c.nextLargePastePlaceholder (normalizePasted s).length).1, normalizePasted s)])
    (List.Subset.refl c.attachedImages)
  exact hmono.large s hlong (mem_append_right _ (mem_singleton.2 rfl))

theorem insertImage {path : Str} (henabled : p.imagePasteEnabled = true)
    (hpath : p.pastedImage (normalizePasted s) = some path) :
    ∃ front', Laid p disabled ((c.attachImage path).insertStr " ") front' []
      (meant ++ plain ++ s) := by
  have hends := (h.ends.insertElement (localImageLabelText_ne_nil
    (c.remoteImageUrls.length + c.attachedImages.length + 1))).insertStr " "
  refine ⟨_, hends.1.front_append _ (append_nil _).symm, ?_, h.disabled_eq⟩
  have hmono := (h.displays.typed plain).mono (List.Subset.refl c.pendingPastes)
    (subset_append_left c.attachedImages [⟨localImageLabelText
      (c.remoteImageUrls.length + c.attachedImages.length + 1), path⟩])
  exact hmono.image s henabled hpath (mem_append_right _ (mem_singleton.2 rfl))

/-- A paste stands behind the text, and leaves no burst. -/
theorem handlePaste (s : Str) : (c.handlePaste p s).pasteBurst = .default ∧
    ∃ front', Laid p disabled (c.handlePaste p s) front' [] (meant ++ plain ++ s) := by
  refine ⟨rfl, ?_⟩
  unfold ChatComposer.handlePaste ChatComposer.insertPaste
  simp only
  split
  next hlong =>
    obtain ⟨front', hlaid⟩ := h.insertLargePaste hlong
    exact ⟨front', hlaid.withBurst _⟩
  next =>
    split
    next himage =>
      simp only [Bool.and_eq_true, ChatComposer.handlePasteImagePath] at himage ⊢
      cases hpath : p.pastedImage (normalizePasted s) with
      | none =>
        rw [hpath] at himage
        exact absurd himage.2 Bool.false_ne_true
      | some path =>
        obtain ⟨front', hlaid⟩ := h.insertImage himage.1.2 hpath
        exact ⟨front', hlaid.withBurst _⟩
    next =>
      have hinserted := h.settle.insertStr (normalizePasted s)
      refine ⟨front ++ plain ++ normalizePasted s, ?_, h.displays.typed plain |>.pasted s,
        h.disabled_eq⟩
      exact hinserted.ends.front_append _ (by simp)

/-- A key that types deletes nothing. -/
theorem inputAndReconcile (htypes : event.Types p s) :
    Laid p disabled (c.inputAndReconcile p event) front (plain ++ s) meant ∧
      (c.inputAndReconcile p event).pasteBurst = c.pasteBurst := by
  obtain ⟨hends, helements⟩ := h.ends.input htypes
  have hpayloads : (c.textarea.input p.toPlatform event).elementPayloads =
      c.textarea.elementPayloads := by
    rw [hends.elementPayloads, h.ends.elementPayloads, helements]
  have hnone : c.textarea.elementPayloads.filter (· ∉ c.textarea.elementPayloads) = [] :=
    filter_eq_nil_iff.2 fun payload hmem => by simp [hmem]
  have hsame : c.inputAndReconcile p event =
      { c with textarea := c.textarea.input p.toPlatform event } := by
    unfold ChatComposer.inputAndReconcile
    simp only
    split
    · rfl
    · unfold reconcileDeletedElements
      dsimp only
      rw [hpayloads, hnone]
      rfl
  rw [hsame]
  exact ⟨⟨hends, h.displays, h.disabled_eq⟩, rfl⟩

theorem inputRetaining (htypes : event.Types p s) :
    Laid p disabled { c with textarea := c.textarea.input p.toPlatform event }.retainPendingPastes
      front (plain ++ s) meant := by
  obtain ⟨hends, -⟩ := h.ends.input htypes
  refine ⟨hends, h.displays.retain ?_, h.disabled_eq⟩
  dsimp only
  rw [hends.text]
  exact (prefix_append _ _).isInfix

end Laid

/-! ## One key or tick -/

/-- After a paste nothing waits. -/
theorem Laid.handlePaste_keeps (h : Laid p disabled c front plain meant) (s : Str) :
    Keeps p disabled (c.handlePaste p s) (meant ++ plain ++ s) ∧
      (c.handlePaste p s).pasteBurst.isActive = false := by
  obtain ⟨hburst, front', hlaid⟩ := h.handlePaste s
  refine ⟨⟨front', [], meant ++ plain ++ s, hlaid, ?_, ?_, fun _ => ?_⟩, ?_⟩
  · rw [hburst]
    simp [PasteBurst.waiting, PasteBurst.default]
  · rw [hburst]
    exact PasteBurst.counted_default _
  · rw [hburst]
    rfl
  · rw [hburst]
    rfl

/-- Text behind which nothing waits. -/
theorem Laid.keeps (h : Laid p disabled c front plain meant)
    (hidle : c.pasteBurst.isActive = false) (hcounted : c.pasteBurst.Counted plain.length) :
    Keeps p disabled c (meant ++ plain) :=
  ⟨front, plain, meant, h, by rw [PasteBurst.waiting_of_not_isActive hidle, append_nil],
    hcounted, fun _ => hidle⟩

theorem Keeps.displays (h : Keeps p disabled c typed) (hidle : c.pasteBurst.isActive = false) :
    Displays p c.pendingPastes c.attachedImages c.textarea.text typed := by
  obtain ⟨front, plain, meant, hkept⟩ := h
  rw [hkept.typed, PasteBurst.waiting_of_not_isActive hidle, append_nil, hkept.ends.text]
  exact hkept.displays.typed plain

theorem Keeps.flushBeforeModifiedInput (h : Keeps p disabled c typed) :
    Keeps p disabled (c.flushBeforeModifiedInput p) typed ∧
      (c.flushBeforeModifiedInput p).pasteBurst.isActive = false := by
  obtain ⟨front, plain, meant, hkept⟩ := h
  unfold ChatComposer.flushBeforeModifiedInput
  obtain ⟨hidle, heq⟩ | ⟨b, heq⟩ := c.pasteBurst.flushBeforeModifiedInput_eq
  · rw [heq]
    exact ⟨⟨front, plain, meant, hkept⟩, hidle⟩
  · rw [heq, hkept.typed]
    exact (hkept.toLaid.withBurst b).handlePaste_keeps c.pasteBurst.waiting

/-- After a tick what is held back is fresh. -/
theorem Keeps.handlePasteBurstFlush (h : Keeps p disabled c typed) (now : Nat) :
    Keeps p disabled (c.handlePasteBurstFlush p now) typed ∧
      ∀ held t, (c.handlePasteBurstFlush p now).pasteBurst.pendingFirstChar = some (held, t) →
        now - t ≤ pasteBurstCharInterval p.windows := by
  obtain ⟨front, plain, meant, hkept⟩ := h
  unfold ChatComposer.handlePasteBurstFlush
  obtain ⟨b, heq⟩ | ⟨ch, b, heq, hwaiting, hidle, hcounted⟩ | ⟨heq, hfresh⟩ :=
    hkept.counted.flushIfDue p.windows now
  · rw [heq, hkept.typed]
    obtain ⟨hkeeps, -⟩ := (hkept.toLaid.withBurst b).handlePaste_keeps c.pasteBurst.waiting
    exact ⟨hkeeps, fun _ _ ht => absurd ht (by
      simp [ChatComposer.handlePaste, PasteBurst.clearAfterExplicitPaste, PasteBurst.default])⟩
  · rw [heq, hkept.typed, hwaiting, append_assoc]
    refine ⟨((hkept.toLaid.withBurst b).insertStr [ch]).keeps hidle ?_, fun _ _ ht => ?_⟩
    · rw [length_append]
      exact hcounted
    · exact absurd ht (by simp [(PasteBurst.isActive_eq_false_iff.1 hidle).2.2,
        ChatComposer.insertStr])
  · rw [heq]
    exact ⟨⟨front, plain, meant, hkept⟩, hfresh⟩

theorem flushBeforeModifiedInput_of_idle (hidle : c.pasteBurst.isActive = false) :
    c.flushBeforeModifiedInput p = c := by
  unfold ChatComposer.flushBeforeModifiedInput PasteBurst.flushBeforeModifiedInput
  simp [hidle]

/-- A key that types goes to a text area behind which nothing waits. -/
theorem Laid.inputBasic (h : Laid p disabled c front plain meant)
    (hidle : c.pasteBurst.isActive = false) (hcounted : c.pasteBurst.Counted (plain ++ s).length)
    (htypes : event.Types p s) :
    Keeps p disabled (c.inputBasic p event) (meant ++ plain ++ s) := by
  obtain ⟨hlaid, hburst⟩ := h.inputAndReconcile htypes
  rw [← hburst] at hidle hcounted
  have hclear := PasteBurst.clearWindowAfterNonChar_spec hidle
  have hkept := hlaid.keeps hidle hcounted
  have hcleared := (hlaid.withBurst _).keeps (hclear 0).1 (hclear _).2
  rw [← append_assoc] at hkept hcleared
  rw [hburst] at hidle
  unfold ChatComposer.inputBasic
  rw [flushBeforeModifiedInput_of_idle hidle]
  cases hcode : event.code with
  | char ch =>
    dsimp only
    split
    · exact hcleared
    · exact hkept
  | enter => exact hkept
  | backspace => exact hcleared
  | delete => exact hcleared
  | left => exact hcleared
  | right => exact hcleared
  | up => exact hcleared
  | down => exact hcleared
  | home => exact hcleared
  | stop => exact hcleared
  | other => exact hcleared

theorem Keeps.inputBasic (h : Keeps p disabled c typed) (hidle : c.pasteBurst.isActive = false)
    (htypes : event.Types p s) : Keeps p disabled (c.inputBasic p event) (typed ++ s) := by
  obtain ⟨front, plain, meant, hkept⟩ := h
  rw [hkept.typed, PasteBurst.waiting_of_not_isActive hidle, append_nil]
  refine hkept.toLaid.inputBasic hidle (hkept.counted.mono ?_) htypes
  rw [length_append]
  exact Nat.le_add_right _ _

/-- Characters taken back from the plain end wait in the buffer, before the one that comes. -/
theorem Laid.beginBuffer (h : Laid p false c front plain meant) {retroChars : Nat}
    (hidle : c.pasteBurst.isActive = false) (htimed : c.pasteBurst.lastPlainCharTime = some now)
    (hle : retroChars ≤ plain.length) {buffering : ChatComposer}
    (hbegin : c.beginBuffer retroChars ch now = some buffering) :
    Keeps p false buffering (meant ++ plain ++ [ch]) := by
  obtain ⟨-, hbuffer, hpending⟩ := PasteBurst.isActive_eq_false_iff.1 hidle
  have hbefore : c.textBeforeCursor = front ++ plain := by
    rw [textBeforeCursor, h.ends.cursorPos, h.ends.text]
    simpa using Str.takeBytes_boundary (front ++ plain) []
  have hstart : retroStartIndex (front ++ plain) retroChars =
      Str.utf8Size (front ++ plain.take (plain.length - retroChars)) := by
    have hlen : (front ++ plain).length - retroChars =
        front.length + (plain.length - retroChars) := by
      rw [length_append]
      omega
    rw [retroStartIndex, hlen, take_length_add_append]
  have hsplit := take_append_drop (plain.length - retroChars) plain
  generalize plain.take (plain.length - retroChars) = kept at hstart hsplit
  generalize plain.drop (plain.length - retroChars) = grabbed at hsplit
  subst hsplit
  have hgrabbed : Str.dropBytes (Str.utf8Size (front ++ kept)) (front ++ (kept ++ grabbed)) =
      grabbed := by
    rw [← append_assoc]
    exact Str.dropBytes_boundary _ _
  unfold ChatComposer.beginBuffer at hbegin
  simp only [PasteBurst.decideBeginBuffer, hbefore, hstart, hgrabbed] at hbegin
  split at hbegin
  next grab b hdecided =>
    split at hdecided
    next =>
      obtain ⟨hgrab, hb⟩ := Prod.mk.inj hdecided
      obtain rfl := Option.some.inj hgrab
      subst hb
      obtain rfl := Option.some.inj hbegin
      have hends : (if grabbed.isEmpty then c.textarea else
          c.textarea.replaceRange ⟨Str.utf8Size (front ++ kept),
            Str.utf8Size (front ++ (kept ++ grabbed))⟩ []).EndsPlain front kept := by
        cases hempty : grabbed with
        | nil =>
          rw [hempty, append_nil] at h
          exact h.ends
        | cons d rest =>
          rw [← hempty, ← h.ends.text]
          have hne : grabbed ≠ [] := by simp [hempty]
          rw [if_neg (by simp [hempty])]
          exact h.ends.replaceRange kept grabbed rfl hne
      refine ⟨front, kept, meant, ⟨hends, h.displays, h.disabled_eq⟩, ?_, ⟨?_, ?_, ?_, ?_⟩, ?_⟩
      · simp [PasteBurst.waiting, PasteBurst.appendCharToBuffer, PasteBurst.beginWithRetroGrabbed,
          PasteBurst.extendWindow, hbuffer, hpending]
      · exact fun ha => absurd ha (by simp [PasteBurst.appendCharToBuffer,
          PasteBurst.beginWithRetroGrabbed, PasteBurst.extendWindow])
      · exact fun _ _ ht => absurd (hpending.symm.trans ht) (by simp)
      · exact fun _ => by simp [PasteBurst.appendCharToBuffer, PasteBurst.beginWithRetroGrabbed,
          PasteBurst.extendWindow, htimed]
      · exact fun ha => absurd ha (by simp [PasteBurst.appendCharToBuffer,
          PasteBurst.beginWithRetroGrabbed, PasteBurst.extendWindow])
      · exact fun hfalse => absurd hfalse Bool.false_ne_true
    next => exact absurd hdecided (by simp)
  next => exact absurd hbegin (by simp)

theorem Keeps.handleAsciiChar (h : Keeps p false c typed)
    (hfresh : ∀ held t, c.pasteBurst.pendingFirstChar = some (held, t) →
      now - t ≤ pasteBurstCharInterval p.windows)
    (htypes : event.Types p [ch]) :
    Keeps p false (c.handleAsciiChar p ch event now) (typed ++ [ch]) := by
  obtain ⟨front, plain, meant, hkept⟩ := h
  have hfalse : ∀ {P : Prop}, false = true → P := fun h => absurd h Bool.false_ne_true
  unfold ChatComposer.handleAsciiChar
  obtain ⟨d, b, heq, hd, hwaiting, hcounted⟩ | ⟨b, heq, hwaiting, hcounted⟩ |
    ⟨r, b, heq, hle, hnone, hidle, htimed, hcounted⟩ :=
    hkept.counted.onPlainChar ch hfresh
  · rw [heq, hkept.typed, append_assoc, ← hwaiting]
    obtain rfl | rfl := hd
    · exact ⟨front, plain, meant, hkept.withBurst _, rfl, hcounted, hfalse⟩
    · exact ⟨front, plain, meant, hkept.withBurst _, rfl, hcounted, hfalse⟩
  · rw [heq, hkept.typed, append_assoc, ← hwaiting]
    exact ⟨front, plain, meant, hkept.withBurst _, rfl, hcounted, hfalse⟩
  · rw [heq, hkept.typed, hnone, append_nil]
    have hlaid := hkept.withBurst b
    dsimp only
    split
    next buffering hbegin => exact hlaid.beginBuffer hidle htimed hle hbegin
    next =>
      -- the character is typed after all, and counts among those that can be taken back
      rw [flushBeforeModifiedInput_of_idle hidle]
      refine hlaid.inputBasic hidle ?_ htypes
      rw [length_append]
      exact hcounted

/-- A key that is not taken into a burst. -/
theorem Laid.insertNonAscii (h : Laid p disabled c front plain meant)
    (hidle : c.pasteBurst.isActive = false) (hcounted : c.pasteBurst.Counted (plain ++ s).length)
    (htypes : event.Types p s) :
    Keeps p disabled (c.insertNonAscii p event) (meant ++ plain ++ s) := by
  unfold ChatComposer.insertNonAscii
  rw [flushBeforeModifiedInput_of_idle hidle, append_assoc]
  exact (h.inputRetaining htypes).keeps hidle hcounted

theorem Keeps.handleNonAsciiChar (h : Keeps p false c typed) (htypes : event.Types p [ch]) :
    Keeps p false (c.handleNonAsciiChar p ch event now) (typed ++ [ch]) := by
  have hfalse : ∀ {P : Prop}, false = true → P := fun h => absurd h Bool.false_ne_true
  have hflush := h.flushBeforeModifiedInput
  obtain ⟨front, plain, meant, hkept⟩ := h
  unfold ChatComposer.handleNonAsciiChar
  rw [if_neg (by simp [hkept.disabled_eq])]
  obtain ⟨b, heq, hwaiting, hcounted⟩ | heq :=
    hkept.counted.tryAppendCharIfActive ch now
  · rw [heq, hkept.typed, append_assoc, ← hwaiting]
    exact ⟨front, plain, meant, hkept.withBurst _, rfl, hcounted, hfalse⟩
  · rw [heq]
    dsimp only
    generalize c.flushBeforeModifiedInput p = c' at hflush
    obtain ⟨⟨front, plain, meant, hkept⟩, hidle⟩ := hflush
    rw [hkept.typed, PasteBurst.waiting_of_not_isActive hidle, append_nil]
    obtain ⟨b, hbidle, htimed, hcounted, heq | ⟨r, hle, heq⟩⟩ :=
      hkept.counted.onPlainCharNoHold p.windows now hidle
    · have hlaid := hkept.withBurst b
      rw [heq]
      refine hlaid.insertNonAscii hbidle ?_ htypes
      rw [length_append]
      exact hcounted
    · have hlaid := hkept.withBurst b
      rw [heq]
      dsimp only
      split
      next buffering hbegin => exact hlaid.beginBuffer hbidle htimed hle hbegin
      next =>
        refine hlaid.insertNonAscii hbidle ?_ htypes
        rw [length_append]
        exact hcounted

theorem Keeps.appendNewline (h : Keeps p disabled c typed)
    (hactive : c.pasteBurst.isActive = true) (hpending : c.pasteBurst.pendingFirstChar = none) :
    Keeps p disabled { c with pasteBurst := (c.pasteBurst.appendNewlineIfActive now).2 }
      (typed ++ ['\n']) := by
  obtain ⟨front, plain, meant, hkept⟩ := h
  obtain ⟨hwaiting, hcounted⟩ := hkept.counted.appendNewline now hactive hpending
  refine ⟨front, plain, meant, hkept.withBurst _, ?_, hcounted, fun hdisabled => ?_⟩
  · rw [hwaiting, hkept.typed, append_assoc]
  · rw [hkept.idle hdisabled] at hactive
    exact absurd hactive Bool.false_ne_true

theorem Keeps.handleInputBasicWithTime (h : Keeps p disabled c typed) (htypes : event.Types p s)
    (hpending : event.code = .enter →
      (c.handlePasteBurstFlush p now).pasteBurst.pendingFirstChar = none) :
    Keeps p disabled (c.handleInputBasicWithTime p event now) (typed ++ s) := by
  obtain ⟨hkeeps, hfresh⟩ := h.handlePasteBurstFlush now
  unfold ChatComposer.handleInputBasicWithTime
  generalize c.handlePasteBurstFlush p now = c at hkeeps hfresh hpending
  have hdisabled : c.disablePasteBurst = disabled := by
    obtain ⟨front, plain, meant, hkept⟩ := hkeeps
    exact hkept.disabled_eq
  obtain ⟨hflushed, hidle⟩ := hkeeps.flushBeforeModifiedInput
  have hother : (∀ ch, event.code ≠ .char ch) → event.code ≠ .enter →
      Keeps p disabled (c.inputBasic p event) (typed ++ s) := by
    intro hchar henter
    have hsame : (c.flushBeforeModifiedInput p).inputBasic p event = c.inputBasic p event := by
      unfold ChatComposer.inputBasic
      rw [flushBeforeModifiedInput_of_idle hidle]
      cases hcode : event.code with
      | char ch => exact absurd hcode (hchar ch)
      | enter => exact absurd hcode henter
      | backspace => rfl
      | delete => rfl
      | left => rfl
      | right => rfl
      | up => rfl
      | down => rfl
      | home => rfl
      | stop => rfl
      | other => rfl
    rw [← hsame]
    exact hflushed.inputBasic hidle htypes
  cases hcode : event.code with
  | char ch =>
    dsimp only
    split
    next hplain =>
      simp only [Bool.and_eq_true, Bool.not_eq_true'] at hplain
      obtain rfl := htypes.eq_of_char hcode hplain.1
      obtain rfl : disabled = false := hdisabled.symm.trans hplain.2
      split
      · exact hkeeps.handleAsciiChar hfresh htypes
      · exact hkeeps.handleNonAsciiChar htypes
    next => exact hflushed.inputBasic hidle htypes
  | enter =>
    dsimp only
    split
    next hburst =>
      simp only [Bool.and_eq_true] at hburst
      obtain rfl : s = ['\n'] := by
        cases htypes with
        | inserts hop =>
          have henter := hop .new
          unfold KeyEvent.op at henter
          rw [hcode] at henter
          exact (Op.insertStr.inj (Option.some.inj henter)).symm
        | unbound hmod _ =>
          unfold KeyEvent.Modified at hmod
          rw [hcode] at hmod
          exact hmod.elim
      exact hkeeps.appendNewline hburst.2 (hpending hcode)
    next hburst =>
      refine hkeeps.inputBasic ?_ htypes
      rw [hdisabled, Bool.and_eq_true, not_and, Bool.not_eq_true] at hburst
      cases hd : disabled with
      | true =>
        obtain ⟨front, plain, meant, hkept⟩ := hkeeps
        exact hkept.idle hd
      | false => exact hburst (by rw [hd]; rfl)
  | backspace | delete | left | right | up | down | home | stop | other =>
    exact hother (by simp [hcode]) (by simp [hcode])

theorem Keeps.handleBurstEnter (h : Keeps p disabled c typed)
    (hpending : c.pasteBurst.pendingFirstChar = none) {c' : ChatComposer}
    (henter : c.handleBurstEnter now = some c') : Keeps p disabled c' (typed ++ ['\n']) := by
  unfold ChatComposer.handleBurstEnter at henter
  split at henter
  next hburst =>
    simp only [Bool.and_eq_true] at hburst
    obtain rfl := Option.some.inj henter
    exact h.appendNewline hburst.2 hpending
  next hnot =>
    split at henter
    next hwindow =>
      obtain rfl := Option.some.inj henter
      simp only [Bool.and_eq_true, not_and, Bool.not_eq_true, Bool.not_eq_true'] at hnot hwindow
      have hidle := hnot hwindow.1
      obtain ⟨front, plain, meant, hkept⟩ := h
      rw [hkept.typed, PasteBurst.waiting_of_not_isActive hidle, append_nil,
        append_assoc]
      refine ((hkept.toLaid.insertStr ['\n']).withBurst _).keeps ?_ ?_
      · exact hidle
      · rw [length_append]
        exact (hkept.counted.mono (Nat.le_add_right _ _)).extendWindow now
    next => exact absurd henter (by simp)

/-- Some time after the last character a tick leaves nothing waiting. -/
theorem Keeps.exists_flushed (h : Keeps p disabled c typed) :
    ∃ due, ∀ now > due, (c.handlePasteBurstFlush p now).pasteBurst.isActive = false := by
  obtain ⟨front, plain, meant, hkept⟩ := h
  cases hactive : c.pasteBurst.isActive with
  | true =>
    obtain ⟨t, ht⟩ := Option.isSome_iff_exists.1 (hkept.counted.timed hactive)
    refine ⟨t + pasteBurstActiveIdleTimeout p.windows + pasteBurstCharInterval p.windows,
      fun now hlate => ?_⟩
    have hsome := PasteBurst.flushIfDue_ne_none hactive ht hlate
    unfold ChatComposer.handlePasteBurstFlush
    obtain ⟨b, heq⟩ | ⟨ch, b, heq, -, hidle, -⟩ | ⟨heq, -⟩ :=
      hkept.counted.flushIfDue p.windows now
    · rw [heq]
      rfl
    · rw [heq]
      exact hidle
    · rw [heq] at hsome
      exact absurd rfl hsome
  | false =>
    refine ⟨0, fun now _ => ?_⟩
    unfold ChatComposer.handlePasteBurstFlush
    obtain ⟨b, heq⟩ | ⟨ch, b, heq, -, hidle, -⟩ | ⟨heq, -⟩ :=
      hkept.counted.flushIfDue p.windows now
    · rw [heq]
      rfl
    · rw [heq]
      exact hidle
    · rw [heq]
      exact hactive

end ChatComposer

/-! ## Runs -/

structure TypedComposer where
  composer : ChatComposer
  typed : Str

inductive BurstEvent where
  /-- a key for `handle_input_basic` -/
  | key (event : KeyEvent) (now : Nat)
  /-- the Enter key, where it would submit outside of a burst -/
  | enter (now : Nat)
  | tick (now : Nat)

namespace TypedComposer

variable {p : ComposerPlatform} {c t : TypedComposer}

def start (disablePasteBurst : Bool) : TypedComposer := ⟨.new disablePasteBurst, []⟩

/-- Keys that type, Enter keys that are taken for a part of a burst, and ticks. -/
inductive Step (p : ComposerPlatform) : TypedComposer → BurstEvent → TypedComposer → Prop
  | key {c : TypedComposer} {event : KeyEvent} {s : Str} (now : Nat) (h : event.Types p s) :
      Step p c (.key event now) ⟨c.composer.handleInputBasicWithTime p event now, c.typed ++ s⟩
  | enter {c : TypedComposer} {composer : ChatComposer} (now : Nat)
      (h : c.composer.handleBurstEnter now = some composer) :
      Step p c (.enter now) ⟨composer, c.typed ++ ['\n']⟩
  | tick {c : TypedComposer} (now : Nat) :
      Step p c (.tick now) ⟨c.composer.handlePasteBurstFlush p now, c.typed⟩

/-- No Enter finds a character that is held back. -/
def Clear (p : ComposerPlatform) (c : TypedComposer) : BurstEvent → Prop
  | .key event now => event.code = .enter →
    (c.composer.handlePasteBurstFlush p now).pasteBurst.pendingFirstChar = none
  | .enter _ => c.composer.pasteBurst.pendingFirstChar = none
  | .tick _ => True

structure ClearStep (p : ComposerPlatform) (c : TypedComposer) (event : BurstEvent)
    (t : TypedComposer) : Prop where
  step : Step p c event t
  clear : c.Clear p event

theorem ClearStep.keeps {disabled : Bool} {event : BurstEvent} (h : ClearStep p c event t)
    (hc : c.composer.Keeps p disabled c.typed) : t.composer.Keeps p disabled t.typed := by
  obtain ⟨hstep, hclear⟩ := h
  cases hstep with
  | key now htypes => exact hc.handleInputBasicWithTime htypes hclear
  | enter now henter => exact hc.handleBurstEnter hclear henter
  | tick now => exact (hc.handlePasteBurstFlush now).1

/-- Nothing that is typed is lost, comes twice or changes places: after a run whose Enter keys find
no character held back, a late tick leaves nothing waiting; the text displays what was typed as soon
as nothing waits, and does so before a modified key acts on it; without long pastes, line ends to
change and images it is what was typed. -/
theorem displays_of_run {disabled : Bool} {events : List BurstEvent}
    (h : Run (ClearStep p) (start disabled) events t) :
    (∃ due, ∀ now > due,
        (t.composer.handlePasteBurstFlush p now).pasteBurst.isActive = false) ∧
      (t.composer.pasteBurst.isActive = false → Displays p t.composer.pendingPastes
        t.composer.attachedImages t.composer.textarea.text t.typed) ∧
      (∀ now, Displays p
        ((t.composer.handlePasteBurstFlush p now).flushBeforeModifiedInput p).pendingPastes
        ((t.composer.handlePasteBurstFlush p now).flushBeforeModifiedInput p).attachedImages
        ((t.composer.handlePasteBurstFlush p now).flushBeforeModifiedInput p).textarea.text
        t.typed) ∧
      (t.composer.pasteBurst.isActive = false → p.imagePasteEnabled = false → '\r' ∉ t.typed →
        t.typed.length ≤ largePasteCharThreshold → t.composer.textarea.text = t.typed) := by
  have hkeeps := h.invariant (I := fun c => c.composer.Keeps p disabled c.typed)
    (fun hc hstep => hstep.keeps hc) (ChatComposer.new_keeps p disabled)
  refine ⟨hkeeps.exists_flushed, hkeeps.displays, fun now => ?_, fun hidle himages hcr hlen => ?_⟩
  · obtain ⟨hflushed, hidle⟩ := (hkeeps.handlePasteBurstFlush now).1.flushBeforeModifiedInput
    exact hflushed.displays hidle
  · exact (hkeeps.displays hidle).eq_of_plain hcr hlen himages

open TiedComposer (charComposerPlatform)

/-- The control characters that the text area takes for motions. -/
def motionChars : Str := ['\x02', '\x06', '\x10', '\x0e']

theorem noMotion_of_all {s : Str} (h : (s.all fun ch => decide (ch ∉ motionChars)) = true) :
    ∀ ch ∈ s, ch ∉ motionChars := fun ch hch => of_decide_eq_true (all_eq_true.1 h ch hch)

theorem types_char (p : ComposerPlatform) {ch : Char} (h : ch ∉ motionChars) :
    (⟨.char ch, .none⟩ : KeyEvent).Types p [ch] := by
  simp only [motionChars, mem_cons, not_mem_nil, or_false, not_or] at h
  obtain ⟨h1, h2, h3, h4⟩ := h
  refine .inserts fun a => ?_
  simp only [KeyEvent.op, KeyEvent.charOp]
  rw [if_neg fun hc => h1 hc.1, if_neg fun hc => h2 hc.1, if_neg fun hc => h3 hc.1,
    if_neg fun hc => h4 hc.1, if_pos (.inl trivial)]

/-- Characters a millisecond apart. -/
def fastKeys : Str → Nat → List BurstEvent
  | [], _ => []
  | ch :: s, now => .key ⟨.char ch, .none⟩ now :: fastKeys s (now + 1000000)

def typeFast (p : ComposerPlatform) (c : ChatComposer) : Str → Nat → ChatComposer
  | [], _ => c
  | ch :: s, now =>
    typeFast p (c.handleInputBasicWithTime p ⟨.char ch, .none⟩ now) s (now + 1000000)

theorem run_fastKeys (p : ComposerPlatform) {s : Str} (h : ∀ ch ∈ s, ch ∉ motionChars)
    (c : TypedComposer) (now : Nat) :
    Run (ClearStep p) c (fastKeys s now) ⟨typeFast p c.composer s now, c.typed ++ s⟩ := by
  induction s generalizing c now with
  | nil =>
    rw [append_nil]
    exact .nil c
  | cons ch s ih =>
    have hkey := Step.key (c := c) now (types_char p (h ch mem_cons_self))
    have hrest := ih (fun d hd => h d (mem_cons_of_mem ch hd))
      ⟨c.composer.handleInputBasicWithTime p ⟨.char ch, .none⟩ now, c.typed ++ [ch]⟩ (now + 1000000)
    rw [append_assoc, singleton_append] at hrest
    exact .cons ⟨hkey, fun henter => absurd henter (by simp)⟩ hrest

/-- A burst with a newline in it, and a character after it. -/
theorem displays_of_run_newline : ∃ t, Run (ClearStep charComposerPlatform) (start false)
    (fastKeys "hi" 0 ++ [.enter 2000000, .tick 1000000000]) t ∧
      t.composer.textarea.text = "hi\n" ∧
      Displays charComposerPlatform t.composer.pendingPastes t.composer.attachedImages
        t.composer.textarea.text t.typed := by
  have hplain : ∀ ch ∈ ("hi" : Str), ch ∉ motionChars := noMotion_of_all (by decide)
  have hkeys := run_fastKeys charComposerPlatform hplain (start false) 0
  have henter : (typeFast charComposerPlatform (start false).composer "hi" 0).handleBurstEnter
      2000000 = some _ := rfl
  have hclear : (typeFast charComposerPlatform (start false).composer "hi"
      0).pasteBurst.pendingFirstChar = none := by decide +kernel
  have hrun := hkeys.append (.cons ⟨.enter 2000000 henter, hclear⟩
    (.single ⟨.tick 1000000000, trivial⟩))
  exact ⟨_, hrun, by decide +kernel, (displays_of_run hrun).2.1 (by decide +kernel)⟩

theorem handleInputBasicWithTime_burst (p : ComposerPlatform) {c : ChatComposer} {ch : Char}
    {t : Nat} (now : Nat) (hc : c.pasteBurst.active = true ∧ c.pasteBurst.pendingFirstChar = none ∧
      c.pasteBurst.lastPlainCharTime = some t ∧ c.disablePasteBurst = false)
    (hfast : now - t ≤ 8000000) (hascii : ch.toNat < 128) :
    ∃ b, c.handleInputBasicWithTime p ⟨.char ch, .none⟩ now = { c with pasteBurst := b } ∧
      b.buffer = c.pasteBurst.buffer ++ [ch] ∧ b.active = true ∧ b.pendingFirstChar = none ∧
      b.lastPlainCharTime = some now := by
  obtain ⟨hactive, hpending, htime, hd⟩ := hc
  have hnotDue : ¬ now - t > pasteBurstActiveIdleTimeout p.windows := by
    unfold pasteBurstActiveIdleTimeout
    split <;> omega
  have hflush : c.handlePasteBurstFlush p now = c := by
    simp [ChatComposer.handlePasteBurstFlush, PasteBurst.flushIfDue, PasteBurst.isActiveInternal,
      hactive, htime, hnotDue]
  refine ⟨(((c.pasteBurst.notePlainChar p.windows now).extendWindow now).appendCharToBuffer ch now),
    ?_, rfl, hactive, hpending, rfl⟩
  simp [ChatComposer.handleInputBasicWithTime, hflush, hasCtrlOrAlt, KeyModifiers.none, hd, hascii,
    ChatComposer.handleAsciiChar, PasteBurst.onPlainChar, hactive]

theorem typeFast_burst (p : ComposerPlatform) {s : Str} (hascii : ∀ ch ∈ s, ch.toNat < 128)
    {c : ChatComposer} {t : Nat} (hc : c.pasteBurst.active = true ∧
      c.pasteBurst.pendingFirstChar = none ∧ c.pasteBurst.lastPlainCharTime = some t ∧
      c.disablePasteBurst = false) :
    ∃ b t', typeFast p c s (t + 1000000) = { c with pasteBurst := b } ∧
      b.buffer = c.pasteBurst.buffer ++ s ∧ b.active = true ∧
      b.lastPlainCharTime = some t' ∧ t' = t + s.length * 1000000 := by
  induction s generalizing c t with
  | nil => exact ⟨c.pasteBurst, t, rfl, (append_nil _).symm, hc.1, hc.2.2.1, by simp⟩
  | cons ch s ih =>
    obtain ⟨b, heq, hbuffer, hactive, hpending, htime⟩ :=
      handleInputBasicWithTime_burst p (t + 1000000) hc (by omega)
        (hascii ch mem_cons_self)
    obtain ⟨b', t', heq', hbuffer', hactive', htime', ht'⟩ :=
      ih (fun d hd => hascii d (mem_cons_of_mem ch hd)) (c := { c with pasteBurst := b })
        (t := t + 1000000) ⟨hactive, hpending, htime, hc.2.2.2⟩
    refine ⟨b', t', ?_, ?_, hactive', htime', ?_⟩
    · rw [typeFast, heq]
      exact heq'
    · rw [hbuffer', hbuffer, append_assoc, singleton_append]
    · rw [ht', length_cons]
      omega

theorem head_insertLargePaste {c : ChatComposer} (h : c.textarea = .new) (s : Str) :
    (c.insertLargePaste s).textarea.text.head? = some '[' := by
  have hplaceholder : (c.nextLargePastePlaceholder s.length).1.head? = some '[' := by
    unfold ChatComposer.nextLargePastePlaceholder
    dsimp only
    split <;> rfl
  have hne : (c.nextLargePastePlaceholder s.length).1 ≠ [] := by
    intro hnil
    rw [hnil] at hplaceholder
    exact absurd hplaceholder (by simp)
  have htext : (c.insertLargePaste s).textarea.text =
      (c.nextLargePastePlaceholder s.length).1 ++ [] := by
    have hends := TextArea.new_endsPlain.insertElement hne
    rw [← h] at hends
    exact hends.text
  rw [htext, append_nil, hplaceholder]

theorem typeFast_long {s : Str} (hascii : ∀ ch ∈ s, ch.toNat < 128) (hcr : '\r' ∉ s)
    (hlong : s.length > largePasteCharThreshold) {now : Nat}
    (hlate : now > s.length * 1000000 + 1000000000) :
    ((typeFast charComposerPlatform (.new false) ('a' :: 'a' :: s)
      0).handlePasteBurstFlush charComposerPlatform now).pasteBurst.isActive = false ∧
    ((typeFast charComposerPlatform (.new false) ('a' :: 'a' :: s)
      0).handlePasteBurstFlush charComposerPlatform now).textarea.text.head? = some '[' := by
  obtain ⟨b, t, heq, hbuffer, hactive, htime, rfl⟩ := typeFast_burst charComposerPlatform hascii
    (c := typeFast charComposerPlatform (.new false) "aa" 0) (t := 1000000) (by decide +kernel)
  have htwo : typeFast charComposerPlatform (.new false) ('a' :: 'a' :: s) 0 =
      typeFast charComposerPlatform (typeFast charComposerPlatform (.new false) "aa" 0) s
        (1000000 + 1000000) := rfl
  have hstart : (typeFast charComposerPlatform (.new false) "aa" 0).pasteBurst.buffer = "aa" := by
    decide +kernel
  have htext : (typeFast charComposerPlatform (.new false) "aa" 0).textarea = .new := by
    decide +kernel
  have hdue : now - (1000000 + s.length * 1000000) >
      pasteBurstActiveIdleTimeout charComposerPlatform.windows := by
    unfold pasteBurstActiveIdleTimeout
    split <;> omega
  have hnormal : normalizePasted b.buffer = b.buffer := by
    rw [hbuffer, hstart]
    refine normalizePasted_eq fun hmem => ?_
    rcases mem_append.1 hmem with hmem | hmem
    · exact absurd hmem (by decide)
    · exact hcr hmem
  have hlen : b.buffer.length > largePasteCharThreshold := by
    rw [hbuffer, length_append]
    omega
  rw [htwo, heq]
  simp only [ChatComposer.handlePasteBurstFlush, PasteBurst.flushIfDue, htime, hactive,
    PasteBurst.isActiveInternal, Bool.true_or, if_true, hdue, decide_true, Bool.true_and,
    ChatComposer.handlePaste, ChatComposer.insertPaste, hnormal, if_pos hlen]
  exact ⟨rfl, head_insertLargePaste htext b.buffer⟩

theorem placeholder_of_long {s : Str} (hplain : ∀ ch ∈ s, ch.toNat < 128 ∧ ch ∉ '\r' :: motionChars)
    (hlong : s.length > largePasteCharThreshold) (now : Nat)
    (hlate : now > s.length * 1000000 + 1000000000) :
    ∃ t, Run (Step charComposerPlatform) (start false)
      (fastKeys ('a' :: 'a' :: s) 0 ++ [.tick now]) t ∧
      t.composer.pasteBurst.isActive = false ∧ t.composer.textarea.text ≠ t.typed := by
  have hmotion : ∀ ch ∈ 'a' :: 'a' :: s, ch ∉ motionChars := by
    intro ch hch
    rcases mem_cons.1 hch with rfl | hch
    · decide
    · rcases mem_cons.1 hch with rfl | hch
      · decide
      · exact fun hmem => (hplain ch hch).2 (mem_cons_of_mem _ hmem)
  obtain ⟨hidle, hhead⟩ := typeFast_long (fun ch hch => (hplain ch hch).1)
    (fun hcr => (hplain '\r' hcr).2 mem_cons_self) hlong hlate
  have hkeys := (run_fastKeys charComposerPlatform hmotion (start false) 0).mono
    fun hstep => hstep.step
  refine ⟨_, hkeys.append (.single (.tick now)), hidle, fun heq => ?_⟩
  have hsame : some '[' = some 'a' := hhead.symm.trans (congrArg List.head? heq)
  exact absurd hsame (by decide)

/-- A platform where `a.png` is an image. -/
def imagePlatform : ComposerPlatform :=
  { charComposerPlatform with
    imagePasteEnabled := true
    pastedImage := fun path => if path = "a.png".toList then some path else none }

/-- The path of an image, a long text and a carriage return that come as a burst are not displayed
as they were typed, and a modified key that the text area has a use for deletes what was typed. -/
theorem not_verbatim :
    (∃ t, Run (Step imagePlatform) (start false) (fastKeys "a.png" 0 ++ [.tick 1000000000]) t ∧
      t.composer.pasteBurst.isActive = false ∧ t.composer.textarea.text ≠ t.typed) ∧
    (∃ t, Run (Step charComposerPlatform) (start false)
      (fastKeys ('a' :: 'a' :: List.replicate 1001 'a') 0 ++ [.tick 10000000000]) t ∧
      t.composer.pasteBurst.isActive = false ∧ t.composer.textarea.text ≠ t.typed) ∧
    (∃ t, Run (Step charComposerPlatform) (start false)
      (fastKeys "a\r" 0 ++ [.tick 1000000000]) t ∧
      t.composer.pasteBurst.isActive = false ∧ t.composer.textarea.text ≠ t.typed) ∧
    ∃ t, Run (Step charComposerPlatform) (start false) (fastKeys "a" 0) t ∧ t.typed = "a" ∧
      (t.composer.handleInputBasicWithTime charComposerPlatform ⟨.char 'h', .onlyControl⟩
        1000000000).pasteBurst.isActive = false ∧
      (t.composer.handleInputBasicWithTime charComposerPlatform ⟨.char 'h', .onlyControl⟩
        1000000000).textarea.text = [] := by
  have hrun (p : ComposerPlatform) {s : Str}
      (hs : (s.all fun ch => decide (ch ∉ motionChars)) = true) :=
    (run_fastKeys p (noMotion_of_all hs) (start false) 0).mono fun hstep => hstep.step
  have hlong := placeholder_of_long (s := List.replicate 1001 'a')
    (fun ch hch => by
      rw [List.eq_of_mem_replicate hch]
      decide)
    (by rw [List.length_replicate]; decide) 10000000000 (by rw [List.length_replicate]; decide)
  refine ⟨⟨_, (hrun imagePlatform (by decide)).append (.single (.tick 1000000000)), ?_⟩, hlong,
    ⟨_, (hrun charComposerPlatform (by decide)).append (.single (.tick 1000000000)), ?_⟩,
    ⟨_, hrun charComposerPlatform (by decide), ?_⟩⟩
  · decide +kernel
  · decide +kernel
  · decide +kernel

end TypedComposer

end SheriMl.Tui
