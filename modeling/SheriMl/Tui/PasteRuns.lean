import SheriMl.Lib.Lines
import SheriMl.Lib.Numeral
import SheriMl.Tui.ImageLabels
import SheriMl.Tui.PendingPastes

/-!
# Pastes along a run

Beside the composer a run keeps a log of what was pasted as an element, by its id. Every large paste
gets a placeholder of its own, and as long as its element is there its content is pending
(`PastedComposer.Sound`). Where every placeholder is at its element only, both ways to fill in the
pending pastes give the text with the logged contents (`pending_texts_of_run`). Two pastes of one
length break this: the first placeholder begins the second (`pending_texts_differ`).
-/

namespace SheriMl.Tui

open Transition (Run)

/-! ## Placeholders -/

/-- The placeholder of a paste of a number of characters, by how many there have been. -/
def largePastePlaceholder (charCount suffix : Nat) : Str :=
  let base : Str := "[Pasted Content " ++ (toString charCount).toList ++ " chars]"
  if suffix = 1 then base else base ++ " #" ++ (toString suffix).toList

/-- What follows the placeholder of a later paste of one length. -/
def pasteSuffix (suffix : Nat) : Str :=
  if suffix = 1 then [] else ' ' :: '#' :: (toString suffix).toList

def pastedContent : Str := "[Pasted Content "

def charsEnd : Str := " chars]"

def suffixMark : Str := " #"

theorem largePastePlaceholder_eq (n k : Nat) : largePastePlaceholder n k =
    pastedContent ++ ((toString n).toList ++ ' ' :: (charsEnd.tail ++ pasteSuffix k)) := by
  have hdef : largePastePlaceholder n k =
      if k = 1 then pastedContent ++ (toString n).toList ++ charsEnd
      else pastedContent ++ (toString n).toList ++ charsEnd ++ suffixMark ++ (toString k).toList :=
    rfl
  have hend : charsEnd = ' ' :: charsEnd.tail := by decide
  have hmark : suffixMark = [' ', '#'] := by decide
  generalize charsEnd = chars at hdef hend ⊢
  generalize pastedContent = start at hdef ⊢
  rw [hdef, pasteSuffix, hmark]
  split
  · rw [List.append_nil, ← hend, List.append_assoc]
  · rw [← List.cons_append, ← hend]
    simp only [List.append_assoc, List.cons_append, List.nil_append]

theorem largePastePlaceholder_inj {m n k l : Nat}
    (h : largePastePlaceholder m k = largePastePlaceholder n l) : m = n ∧ k = l := by
  rw [largePastePlaceholder_eq, largePastePlaceholder_eq] at h
  obtain ⟨hcount, hrest⟩ := (Str.append_cons_inj (Decimal.notMem_toString m rfl)
    (Decimal.notMem_toString n rfl)).1 (List.append_cancel_left h)
  refine ⟨Decimal.toString_inj hcount, ?_⟩
  have hsuffix := List.append_cancel_left hrest
  rw [pasteSuffix, pasteSuffix] at hsuffix
  split at hsuffix <;> split at hsuffix
  · next hk hl => rw [hk, hl]
  · cases hsuffix
  · cases hsuffix
  · exact Decimal.toString_inj (List.cons.inj (List.cons.inj hsuffix).2).2

theorem largePastePlaceholder_ne_nil (n k : Nat) : largePastePlaceholder n k ≠ [] := by
  have hhead : pastedContent ≠ [] := by decide
  rw [largePastePlaceholder_eq]
  exact List.append_ne_nil_of_left_ne_nil hhead _

/-- A placeholder that has been given out. -/
def Made (counters : List (Nat × Nat)) (ph : Str) : Prop :=
  ∃ n k, ph = largePastePlaceholder n k ∧ 1 ≤ k ∧ k ≤ (counters.lookup n).getD 0

theorem lookup_filter_ne {m n : Nat} (h : m ≠ n) (counters : List (Nat × Nat)) :
    (counters.filter fun counter => counter.1 ≠ n).lookup m = counters.lookup m := by
  induction counters with
  | nil => rfl
  | cons counter counters ih =>
    by_cases hn : counter.1 = n
    · have hm : (m == counter.1) = false := beq_false_of_ne (hn ▸ h)
      rw [List.filter_cons_of_neg (by simpa using hn), ih, List.lookup_cons, hm]
    · rw [List.filter_cons_of_pos (by simpa using hn), List.lookup_cons, List.lookup_cons, ih]

namespace ChatComposer

variable {c : ChatComposer}

theorem nextLargePastePlaceholder_spec (c : ChatComposer) (n : Nat) :
    ¬ Made c.largePasteCounters (c.nextLargePastePlaceholder n).1 ∧
      Made (c.nextLargePastePlaceholder n).2.largePasteCounters (c.nextLargePastePlaceholder n).1 ∧
      ∀ ph, Made c.largePasteCounters ph →
        Made (c.nextLargePastePlaceholder n).2.largePasteCounters ph := by
  have hph : (c.nextLargePastePlaceholder n).1 =
      largePastePlaceholder n ((c.largePasteCounters.lookup n).getD 0 + 1) := rfl
  have hlookup (m : Nat) : (c.nextLargePastePlaceholder n).2.largePasteCounters.lookup m =
      if m = n then some ((c.largePasteCounters.lookup n).getD 0 + 1)
      else c.largePasteCounters.lookup m := by
    rw [nextLargePastePlaceholder]
    dsimp only
    split
    · next hmn => rw [hmn, List.lookup_cons_self]
    · next hmn =>
      have hbeq : (m == n) = false := beq_false_of_ne hmn
      rw [List.lookup_cons, hbeq]
      exact lookup_filter_ne hmn c.largePasteCounters
  refine ⟨?_, ?_, ?_⟩
  · rintro ⟨m, k, heq, -, hk⟩
    rw [hph] at heq
    obtain ⟨rfl, rfl⟩ := largePastePlaceholder_inj heq
    omega
  · exact ⟨n, _, hph, Nat.succ_pos _, by rw [hlookup, if_pos rfl]; exact Nat.le_refl _⟩
  · rintro ph ⟨m, k, rfl, hpos, hk⟩
    refine ⟨m, k, rfl, hpos, ?_⟩
    rw [hlookup]
    split
    · next hmn =>
      subst hmn
      exact hk.trans (Nat.le_succ _)
    · exact hk

end ChatComposer

/-! ## Steps -/

/-- A composer, with the content of each large paste by the id of its element, the latest first. -/
structure PastedComposer where
  composer : ChatComposer
  log : List (Nat × Str)

/-- What pasting, typing and deleting come down to in the composer. -/
inductive PasteAction where
  | paste (pasted : Str)
  /-- text that a burst or its end puts in -/
  | insertStr (text : Str)
  | key (event : KeyEvent)
  /-- a key that is not an ASCII character -/
  | nonAsciiKey (event : KeyEvent)
  /-- characters that a burst takes back -/
  | grab (range : Range)
  | burst (pasteBurst : PasteBurst)

namespace PastedComposer

variable {p : ComposerPlatform} {s t : PastedComposer}

/-- A large paste is logged under the id of its element. -/
def next (p : ComposerPlatform) (s : PastedComposer) : PasteAction → PastedComposer
  | .paste pasted =>
    ⟨s.composer.handlePaste p pasted,
      if (normalizePasted pasted).length > largePasteCharThreshold then
        (s.composer.textarea.nextElementId, normalizePasted pasted) :: s.log
      else s.log⟩
  | .insertStr text => ⟨s.composer.insertStr text, s.log⟩
  | .key event => ⟨s.composer.inputAndReconcile p event, s.log⟩
  | .nonAsciiKey event =>
    ⟨{ s.composer with
        textarea := s.composer.textarea.input p.toPlatform event }.retainPendingPastes, s.log⟩
  | .grab range =>
    ⟨{ s.composer with textarea := s.composer.textarea.replaceRange range [] }, s.log⟩
  | .burst pasteBurst => ⟨{ s.composer with pasteBurst }, s.log⟩

/-- No image is pasted, and what is taken back are whole characters. -/
def Valid (p : ComposerPlatform) (s : PastedComposer) : PasteAction → Prop
  | .paste pasted => (normalizePasted pasted).length > largePasteCharThreshold ∨
      p.imagePasteEnabled = false ∨ p.pastedImage (normalizePasted pasted) = none
  | .grab range => range.Aligned s.composer.textarea.text
  | _ => True

structure Step (p : ComposerPlatform) (s : PastedComposer) (action : PasteAction)
    (t : PastedComposer) : Prop where
  next : t = s.next p action
  valid : s.Valid p action

/-- A step from where a new element would have an id of its own. -/
structure FreshStep (p : ComposerPlatform) (s : PastedComposer) (action : PasteAction)
    (t : PastedComposer) : Prop extends Step p s action t where
  fresh : s.composer.textarea.HasFreshId

/-- The text with the content that each element was made for. -/
def meant (s : PastedComposer) : Str :=
  filled (fun id text => (s.log.lookup id).getD text) s.composer.textarea.pieces

/-- Every element is a large paste, by a placeholder of its own, and its content is pending. -/
structure Sound (s : PastedComposer) : Prop where
  aligned : s.composer.textarea.Aligned
  noImages : s.composer.attachedImages = []
  made : ∀ paste ∈ s.composer.pendingPastes, Made s.composer.largePasteCounters paste.1
  pending_nodup : (s.composer.pendingPastes.map Prod.fst).Nodup
  texts_nodup : (s.composer.textarea.textElementSnapshots.map Prod.snd).Nodup
  owned : ∀ x ∈ s.composer.textarea.textElementSnapshots,
    ∃ actual, s.log.lookup x.1 = some actual ∧ (x.2, actual) ∈ s.composer.pendingPastes

def start (disablePasteBurst : Bool) : PastedComposer := ⟨.new disablePasteBurst, []⟩

theorem start_sound (disablePasteBurst : Bool) : (start disablePasteBurst).Sound :=
  ⟨TextArea.new_wf.toAligned, rfl, fun _ h => absurd h List.not_mem_nil, List.nodup_nil,
    List.nodup_nil, fun _ h => absurd h List.not_mem_nil⟩

theorem Sound.edits (h : s.Sound) {c : ChatComposer}
    (hedits : s.composer.textarea.Edits c.textarea) (himages : c.attachedImages = [])
    (hcounters : c.largePasteCounters = s.composer.largePasteCounters)
    (hpending : c.pendingPastes.Sublist s.composer.pendingPastes)
    (hkept : ∀ x ∈ c.textarea.textElementSnapshots, ∀ paste ∈ s.composer.pendingPastes,
      paste.1 = x.2 → paste ∈ c.pendingPastes) : Sound ⟨c, s.log⟩ := by
  refine ⟨hedits.aligned, himages, ?_, ?_, ?_, ?_⟩
  · intro paste hpaste
    rw [hcounters]
    exact h.made paste (hpending.subset hpaste)
  · exact h.pending_nodup.sublist (hpending.map _)
  · exact h.texts_nodup.sublist (hedits.snapshots.map _)
  · intro x hx
    obtain ⟨actual, hlog, hmem⟩ := h.owned x (hedits.snapshots.subset hx)
    exact ⟨actual, hlog, hkept x hx _ hmem rfl⟩

theorem Sound.made_of_mem (h : s.Sound) {x : Nat × Str}
    (hx : x ∈ s.composer.textarea.textElementSnapshots) :
    Made s.composer.largePasteCounters x.2 := by
  obtain ⟨actual, -, hmem⟩ := h.owned x hx
  exact h.made _ hmem

theorem Sound.insertLargePaste (h : s.Sound) (hfresh : s.composer.textarea.HasFreshId)
    (pasted : Str) :
    Sound ⟨s.composer.insertLargePaste pasted,
      (s.composer.textarea.nextElementId, pasted) :: s.log⟩ := by
  obtain ⟨hnew, hmade, hmono⟩ := s.composer.nextLargePastePlaceholder_spec pasted.length
  have hne : (s.composer.nextLargePastePlaceholder pasted.length).1 ≠ [] :=
    largePastePlaceholder_ne_nil pasted.length _
  have hinserts := h.aligned.insertElement hne hfresh
  generalize hph : (s.composer.nextLargePastePlaceholder pasted.length).1 = ph
    at hnew hmade hinserts
  have hpending : (s.composer.insertLargePaste pasted).pendingPastes =
      s.composer.pendingPastes ++ [(ph, pasted)] := by
    rw [← hph]
    rfl
  have htext : (s.composer.insertLargePaste pasted).textarea =
      (s.composer.textarea.insertElement ph).1 := by
    rw [← hph]
    rfl
  refine ⟨?_, h.noImages, ?_, ?_, ?_, ?_⟩
  · dsimp only
    rw [htext]
    exact hinserts.wf.toAligned
  · dsimp only
    rw [hpending]
    intro paste hpaste
    rcases List.mem_append.1 hpaste with hpaste | hpaste
    · exact hmono _ (h.made paste hpaste)
    · rw [List.mem_singleton.1 hpaste]
      exact hmade
  · dsimp only
    rw [hpending, List.map_append, List.map_singleton, List.nodup_append]
    refine ⟨h.pending_nodup, List.nodup_singleton ph, fun old hold new hnew' heq => ?_⟩
    obtain ⟨paste, hpaste, rfl⟩ := List.mem_map.1 hold
    have hmade' := h.made paste hpaste
    rw [heq, List.mem_singleton.1 hnew'] at hmade'
    exact hnew hmade'
  · dsimp only
    rw [htext, (hinserts.perm.map Prod.snd).nodup_iff, List.map_cons, List.nodup_cons]
    refine ⟨fun hmem => ?_, h.texts_nodup⟩
    obtain ⟨x, hx, heq⟩ := List.mem_map.1 hmem
    have hmade' := h.made_of_mem hx
    rw [heq] at hmade'
    exact hnew hmade'
  · dsimp only
    rw [htext, hpending]
    intro x hx
    rcases List.mem_cons.1 (hinserts.perm.mem_iff.1 hx) with rfl | hx
    · exact ⟨pasted, List.lookup_cons_self, List.mem_append_right _ (List.mem_singleton_self _)⟩
    · obtain ⟨actual, hlog, hmem⟩ := h.owned x hx
      have hid : (x.1 == s.composer.textarea.nextElementId) = false := by
        refine beq_false_of_ne fun heq => hfresh ?_
        rw [← heq, ← TextArea.map_fst_snapshots]
        exact List.mem_map_of_mem hx
      refine ⟨actual, ?_, List.mem_append_left _ hmem⟩
      rw [List.lookup_cons, hid, hlog]

theorem Sound.burst (h : s.Sound) (pasteBurst : PasteBurst) :
    Sound ⟨{ s.composer with pasteBurst }, s.log⟩ :=
  ⟨h.aligned, h.noImages, h.made, h.pending_nodup, h.texts_nodup, h.owned⟩

theorem Sound.insertStr (h : s.Sound) (text : Str) : Sound ⟨s.composer.insertStr text, s.log⟩ :=
  h.edits (h.aligned.insertStr text) h.noImages rfl (List.Sublist.refl _)
    fun _ _ _ hpaste _ => hpaste

/-- What is dropped with the payloads that are gone, where there are no images. -/
theorem foldl_dropRemoved_pastes (removed : List Str) (c : ChatComposer)
    (himages : c.attachedImages = []) :
    removed.foldl ChatComposer.dropRemoved (c, false) =
      ({ c with
        pendingPastes := c.pendingPastes.filter fun paste => paste.1 ∉ removed }, false) := by
  induction removed generalizing c with
  | nil => simp
  | cons ph removed ih =>
    have hdrop : ChatComposer.dropRemoved (c, false) ph =
        ({ c with pendingPastes := c.pendingPastes.filter fun paste => paste.1 ≠ ph }, false) := by
      rw [ChatComposer.dropRemoved]
      simp [himages]
    rw [List.foldl_cons, hdrop]
    refine (ih { c with
      pendingPastes := c.pendingPastes.filter fun paste => paste.1 ≠ ph } himages).trans ?_
    simp only [List.filter_filter, List.mem_cons, not_or, Bool.decide_and, Bool.and_comm]

/-- The pastes whose payloads are gone are dropped. -/
theorem reconcileDeletedElements_eq (c : ChatComposer) (before : List Str)
    (himages : c.attachedImages = []) :
    c.reconcileDeletedElements before = { c with
      pendingPastes := c.pendingPastes.filter fun paste =>
        paste.1 ∉ before.filter fun payload => payload ∉ c.textarea.elementPayloads } := by
  rw [ChatComposer.reconcileDeletedElements]
  dsimp only
  rw [foldl_dropRemoved_pastes _ c himages]
  rfl

theorem Sound.inputAndReconcile (hp : p.Lawful) (h : s.Sound) (event : KeyEvent) :
    Sound ⟨s.composer.inputAndReconcile p event, s.log⟩ := by
  have hedits := Op.edits_input hp h.aligned event
  unfold ChatComposer.inputAndReconcile
  simp only
  split
  · exact h.edits hedits h.noImages rfl (List.Sublist.refl _) fun _ _ _ hpaste _ => hpaste
  · rw [reconcileDeletedElements_eq { s.composer with
      textarea := s.composer.textarea.input p.toPlatform event } _ h.noImages]
    refine h.edits hedits h.noImages rfl List.filter_sublist fun x hx paste hpaste heq => ?_
    refine List.mem_filter.2 ⟨hpaste, decide_eq_true fun hremoved => ?_⟩
    have hgone := (List.mem_filter.1 hremoved).2
    rw [ChatComposer.elementPayloads_eq hedits.aligned, decide_eq_true_eq] at hgone
    exact hgone (heq ▸ List.mem_map_of_mem hx)

theorem contains_of_mem_snapshots {a : TextArea} {x : Nat × Str}
    (hx : x ∈ a.textElementSnapshots) : Str.contains a.text x.2 = true := by
  obtain ⟨e, -, rfl⟩ := List.mem_map.1 hx
  refine Str.contains_iff.2 ?_
  exact (List.drop_suffix _ _).isInfix.trans (Str.takeBytes_isPrefix _ _).isInfix

theorem Sound.nonAsciiKey (hp : p.Lawful) (h : s.Sound) (event : KeyEvent) :
    Sound ⟨{ s.composer with
      textarea := s.composer.textarea.input p.toPlatform event }.retainPendingPastes, s.log⟩ := by
  have hedits := Op.edits_input hp h.aligned event
  refine h.edits hedits h.noImages rfl List.filter_sublist fun x hx paste hpaste heq => ?_
  refine List.mem_filter.2 ⟨hpaste, ?_⟩
  rw [heq]
  exact contains_of_mem_snapshots hx

theorem handlePaste_small {c : ChatComposer} {pasted : Str}
    (hsmall : ¬ (normalizePasted pasted).length > largePasteCharThreshold)
    (himage : p.imagePasteEnabled = false ∨ p.pastedImage (normalizePasted pasted) = none) :
    c.handlePaste p pasted =
      { c.insertStr (normalizePasted pasted) with pasteBurst := .clearAfterExplicitPaste } := by
  have hnone : ((normalizePasted pasted).length > 1 && p.imagePasteEnabled &&
      (c.handlePasteImagePath p (normalizePasted pasted)).1) = false := by
    rcases himage with himage | himage
    · rw [himage, Bool.and_false, Bool.false_and]
    · rw [ChatComposer.handlePasteImagePath, himage, Bool.and_false]
  rw [ChatComposer.handlePaste, ChatComposer.insertPaste, if_neg hsmall, hnone]
  rfl

theorem FreshStep.sound (hp : p.Lawful) {action : PasteAction} (h : FreshStep p s action t)
    (hs : s.Sound) : t.Sound := by
  obtain ⟨⟨rfl, hvalid⟩, hfresh⟩ := h
  cases action with
  | paste pasted =>
    rw [PastedComposer.next]
    split
    · next hlarge =>
      have hlaid := (hs.insertLargePaste hfresh (normalizePasted pasted)).burst
        .clearAfterExplicitPaste
      rwa [ChatComposer.handlePaste, ChatComposer.insertPaste, if_pos hlarge]
    · next hsmall =>
      rw [handlePaste_small hsmall (hvalid.resolve_left hsmall)]
      exact (hs.insertStr _).burst _
  | insertStr text => exact hs.insertStr text
  | key event => exact hs.inputAndReconcile hp event
  | nonAsciiKey event => exact hs.nonAsciiKey hp event
  | grab range =>
    exact hs.edits (hs.aligned.replaceRange hvalid []) hs.noImages rfl (List.Sublist.refl _)
      fun _ _ _ hpaste _ => hpaste
  | burst pasteBurst => exact hs.burst pasteBurst

/-! ## The texts -/

theorem elementTexts_piecesFrom (text : Str) (cursor : Nat) (elements : List TextElement) :
    elementTexts (piecesFrom text cursor elements) = snapshots text elements := by
  induction elements generalizing cursor with
  | nil => rfl
  | cons e elements ih => exact congrArg (e.snapshot text :: ·) (ih e.range.stop)

theorem lookup_of_mem {pastes : List (Str × Str)} (hnodup : (pastes.map Prod.fst).Nodup)
    {ph actual : Str} (h : (ph, actual) ∈ pastes) : pastes.lookup ph = some actual := by
  cases hlookup : pastes.lookup ph with
  | none => simpa using List.lookup_eq_none_iff.1 hlookup _ h
  | some other =>
    obtain ⟨before, after, rfl, -⟩ := List.lookup_eq_some_iff.1 hlookup
    have hother : (ph, other) ∈ before ++ (ph, other) :: after :=
      List.mem_append_right _ List.mem_cons_self
    have heq := List.inj_on_of_nodup_map hnodup hother h rfl
    exact congrArg some (congrArg Prod.snd heq)

/-- What is pending by the placeholders is what is logged by the ids. -/
theorem Sound.filled_contents (h : s.Sound) :
    filled (contents s.composer.pendingPastes) s.composer.textarea.pieces = s.meant := by
  refine filled_congr fun x hx => ?_
  rw [TextArea.pieces, elementTexts_piecesFrom] at hx
  obtain ⟨actual, hlog, hmem⟩ := h.owned x hx
  rw [contents, hlog, lookup_of_mem h.pending_nodup hmem]

theorem Sound.expand_eq (h : s.Sound) :
    (ChatComposer.expandPendingPastes s.composer.textarea.text s.composer.textarea.textElements
      s.composer.pendingPastes).1 = s.meant := by
  rw [expandPendingPastes_eq h.aligned.elements_wf h.pending_nodup h.texts_nodup,
    h.filled_contents]

theorem Sound.currentTextWithPending_eq (h : s.Sound) (hapart : s.composer.PastesApart) :
    s.composer.currentTextWithPending = s.meant := by
  rw [ChatComposer.currentTextWithPending_eq h.aligned.elements_wf ?_ h.pending_nodup hapart,
    h.filled_contents]
  intro paste hpaste
  obtain ⟨n, k, hph, -⟩ := h.made paste hpaste
  rw [hph]
  exact largePastePlaceholder_ne_nil n k

/-- In every state that a run ends in and that has placeholders at their elements only, both texts
have each element's own content in place of it, and the rest of the text as it is. -/
theorem pending_texts_of_run (hp : p.Lawful) {disablePasteBurst : Bool}
    {actions : List PasteAction} (h : Run (FreshStep p) (start disablePasteBurst) actions t)
    (hapart : t.composer.PastesApart) :
    t.composer.currentTextWithPending = t.meant ∧
      (ChatComposer.expandPendingPastes t.composer.textarea.text t.composer.textarea.textElements
        t.composer.pendingPastes).1 = t.meant := by
  have hsound : t.Sound :=
    h.invariant (fun hs hstep => hstep.sound hp hs) (start_sound disablePasteBurst)
  exact ⟨hsound.currentTextWithPending_eq hapart, hsound.expand_eq⟩

open TiedComposer (charComposerPlatform)

/-- A paste that is just large. -/
def longPaste (c : Char) : Str := List.replicate 1001 c

/-- A paste, and text after it that is partly deleted. -/
theorem pending_texts_of_paste : ∃ t, Run (FreshStep charComposerPlatform) (start false)
    [.paste (longPaste 'x'), .insertStr "ab", .key ⟨.backspace, .none⟩] t ∧
      t.composer.currentTextWithPending = t.meant ∧
      (ChatComposer.expandPendingPastes t.composer.textarea.text t.composer.textarea.textElements
        t.composer.pendingPastes).1 = t.meant := by
  have hrun : Run (FreshStep charComposerPlatform) (start false)
      [.paste (longPaste 'x'), .insertStr "ab", .key ⟨.backspace, .none⟩] _ :=
    .cons ⟨⟨rfl, .inr (.inl rfl)⟩, by decide +kernel⟩
      (.cons ⟨⟨rfl, trivial⟩, by decide +kernel⟩
        (.cons ⟨⟨rfl, trivial⟩, by decide +kernel⟩ (.nil _)))
  exact ⟨_, hrun, pending_texts_of_run charPlatform_lawful hrun (by decide +kernel)⟩

/-- Of two pastes of one length the first placeholder begins the second, and its content is filled
in there too. -/
theorem pending_texts_differ : charComposerPlatform.Lawful ∧
    ∃ t, Run (FreshStep charComposerPlatform) (start false)
        [.paste (longPaste 'x'), .paste (longPaste 'y')] t ∧
      t.composer.currentTextWithPending = longPaste 'x' ++ longPaste 'x' ++ (" #2" : Str) ∧
      (ChatComposer.expandPendingPastes t.composer.textarea.text t.composer.textarea.textElements
        t.composer.pendingPastes).1 = longPaste 'x' ++ longPaste 'y' ∧
      longPaste 'x' ++ longPaste 'x' ++ (" #2" : Str) ≠ longPaste 'x' ++ longPaste 'y' := by
  have hrun : Run (FreshStep charComposerPlatform) (start false)
      [.paste (longPaste 'x'), .paste (longPaste 'y')] _ :=
    .cons ⟨⟨rfl, .inr (.inl rfl)⟩, by decide +kernel⟩
      (.cons ⟨⟨rfl, .inr (.inl rfl)⟩, by decide +kernel⟩ (.nil _))
  refine ⟨charPlatform_lawful, _, hrun, ?_, ?_, ?_⟩
  · decide +kernel
  · decide +kernel
  · decide +kernel

end PastedComposer

end SheriMl.Tui
