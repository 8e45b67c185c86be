import SheriMl.Lib.Queues
import SheriMl.Lib.Replace
import SheriMl.Tui.ChatComposer

/-!
# Pending pastes filled in

A large paste stands in the text as a placeholder element. Its content is filled in in two ways:
`current_text_with_pending` replaces the placeholders everywhere in the text, one after another, and
`expand_pending_pastes` walks over the elements. Both come to the text with the contents in place of
the elements (`filled`) if no placeholder begins anywhere but at its element
(`currentTextWithPending_eq`, `expandPendingPastes_eq`).
-/

namespace SheriMl.Tui

open List

open Str (IsBoundary)

/-- `codex_protocol::user_input::TextElement` -/
structure UserTextElement where
  byteRange : Range
  placeholder : Option Str
  deriving DecidableEq

/-- `placeholder(text)` -/
def UserTextElement.placeholderIn (text : Str) (elem : UserTextElement) : Option Str :=
  elem.placeholder <|> Str.get? text elem.byteRange.start elem.byteRange.stop

/-- `text_elements` -/
def TextArea.textElements (a : TextArea) : List UserTextElement :=
  a.elements.map fun e => ⟨e.range, Str.get? a.text e.range.start e.range.stop⟩

namespace ChatComposer

def currentTextWithPending (c : ChatComposer) : Str :=
  c.pendingPastes.foldl (fun text paste =>
    if Str.contains text paste.1 then Str.replace paste.1 paste.2 text else text) c.textarea.text

/-- The loop of `expand_pending_pastes`, with the text and the elements that are rebuilt. -/
def expandLoop (text : Str) (pendingByPlaceholder : Str → List Str) (cursor : Nat)
    (rebuilt : Str) (rebuiltElements : List UserTextElement) :
    List UserTextElement → Str × List UserTextElement
  | [] =>
    (if cursor < Str.utf8Size text then rebuilt ++ Str.slice text cursor (Str.utf8Size text)
      else rebuilt, rebuiltElements)
  | elem :: elements =>
    let start := min elem.byteRange.start (Str.utf8Size text)
    let stop := min elem.byteRange.stop (Str.utf8Size text)
    if start > stop then
      expandLoop text pendingByPlaceholder cursor rebuilt rebuiltElements elements
    else
      let rebuilt := if start > cursor then rebuilt ++ Str.slice text cursor start else rebuilt
      let elemText := Str.slice text start stop
      let placeholder := elem.placeholderIn text
      match placeholder, (placeholder.map pendingByPlaceholder).getD [] with
      | some ph, actual :: others =>
        expandLoop text (Function.update pendingByPlaceholder ph others) stop (rebuilt ++ actual)
          rebuiltElements elements
      | _, _ =>
        let kept : UserTextElement :=
          ⟨⟨Str.utf8Size rebuilt, Str.utf8Size (rebuilt ++ elemText)⟩,
            placeholder <|> some elemText⟩
        expandLoop text pendingByPlaceholder stop (rebuilt ++ elemText) (rebuiltElements ++ [kept])
          elements

def expandPendingPastes (text : Str) (elements : List UserTextElement)
    (pendingPastes : List (Str × Str)) : Str × List UserTextElement :=
  if pendingPastes = [] ∨ elements = [] then (text, elements)
  else
    let sorted := elements.insertionSort fun e f => e.byteRange.start ≤ f.byteRange.start
    expandLoop text (Queues.ofList pendingPastes) 0 [] [] sorted

end ChatComposer

/-! ## The pieces of a text -/

/-- A text between its elements, and the elements. -/
inductive TextPiece where
  | plain (text : Str)
  | element (id : Nat) (text : Str)

def piecesFrom (text : Str) : Nat → List TextElement → List TextPiece
  | cursor, [] => [.plain (Str.slice text cursor (Str.utf8Size text))]
  | cursor, e :: elements =>
    .plain (Str.slice text cursor e.range.start) ::
      .element e.id (Str.slice text e.range.start e.range.stop) ::
        piecesFrom text e.range.stop elements

def TextArea.pieces (a : TextArea) : List TextPiece := piecesFrom a.text 0 a.elements

/-- The text with something in place of each element. -/
def filled (content : Nat → Str → Str) : List TextPiece → Str
  | [] => []
  | .plain text :: pieces => text ++ filled content pieces
  | .element id text :: pieces => content id text ++ filled content pieces

/-- The contents of pastes, by their placeholders. -/
def contents (pastes : List (Str × Str)) (_ : Nat) (text : Str) : Str :=
  (pastes.lookup text).getD text

/-- A placeholder begins in no other piece than an element with this text. -/
def BeginsAtElements (content : Nat → Str → Str) (ph : Str) : List TextPiece → Prop
  | [] => True
  | .plain text :: pieces =>
    ¬ Str.BeginsIn ph text (filled content pieces) ∧ BeginsAtElements content ph pieces
  | .element id text :: pieces =>
    (text ≠ ph → ¬ Str.BeginsIn ph (content id text) (filled content pieces)) ∧
      BeginsAtElements content ph pieces

instance decidableBeginsAtElements (content : Nat → Str → Str) (ph : Str) :
    (pieces : List TextPiece) → Decidable (BeginsAtElements content ph pieces)
  | [] => inferInstanceAs (Decidable True)
  | .plain _ :: pieces =>
    have := decidableBeginsAtElements content ph pieces
    inferInstanceAs (Decidable (_ ∧ _))
  | .element _ _ :: pieces =>
    have := decidableBeginsAtElements content ph pieces
    inferInstanceAs (Decidable (_ ∧ _))

variable {ph actual text : Str} {pieces : List TextPiece} {pastes : List (Str × Str)}
  {content content' : Nat → Str → Str}

def elementTexts : List TextPiece → List (Nat × Str)
  | [] => []
  | .plain _ :: pieces => elementTexts pieces
  | .element id text :: pieces => (id, text) :: elementTexts pieces

theorem filled_congr (h : ∀ x ∈ elementTexts pieces, content x.1 x.2 = content' x.1 x.2) :
    filled content pieces = filled content' pieces := by
  induction pieces with
  | nil => rfl
  | cons piece pieces ih =>
    cases piece with
    | plain text =>
      rw [filled, filled, ih h]
    | element id text =>
      obtain ⟨hhead, htail⟩ := forall_mem_cons.1 h
      rw [filled, filled, ih htail, hhead]

theorem replace_filled (hne : ph ≠ []) (hnot : ph ∉ pastes.map Prod.fst)
    (h : BeginsAtElements (contents pastes) ph pieces) :
    Str.replace ph actual (filled (contents pastes) pieces) =
      filled (contents (pastes ++ [(ph, actual)])) pieces := by
  have hnone : pastes.lookup ph = none := by
    rw [lookup_eq_none_iff]
    intro paste hpaste
    rw [bne_iff_ne]
    rintro rfl
    exact hnot (mem_map_of_mem hpaste)
  induction pieces with
  | nil => rfl
  | cons piece pieces ih =>
    cases piece with
    | plain text => rw [filled, filled, Str.replace_append h.1, ih h.2]
    | element id text =>
      rw [filled, filled]
      by_cases hph : text = ph
      · subst hph
        have hold : contents pastes id text = text := by
          rw [contents, hnone, Option.getD_none]
        have hnew : contents (pastes ++ [(text, actual)]) id text = actual := by
          rw [contents, lookup_append, hnone]
          simp
        rw [hold, hnew, Str.replace_pattern_append hne, ih h.2]
      · have hsame : contents (pastes ++ [(ph, actual)]) id text = contents pastes id text := by
          have hbeq : (text == ph) = false := beq_false_of_ne hph
          rw [contents, contents, lookup_append, lookup_cons, hbeq]
          simp
        rw [hsame, Str.replace_append (h.1 hph), ih h.2]

theorem foldl_replace {before after : List (Str × Str)}
    (hne : ∀ paste ∈ after, paste.1 ≠ []) (hnodup : ((before ++ after).map Prod.fst).Nodup)
    (h : ∀ mid paste rest, after = mid ++ paste :: rest →
      BeginsAtElements (contents (before ++ mid)) paste.1 pieces) :
    after.foldl (fun text paste =>
        if Str.contains text paste.1 then Str.replace paste.1 paste.2 text else text)
      (filled (contents before) pieces) = filled (contents (before ++ after)) pieces := by
  induction after generalizing before with
  | nil => rw [append_nil]; rfl
  | cons paste after ih =>
    obtain ⟨ph, actual⟩ := paste
    obtain ⟨hph, hrest⟩ := forall_mem_cons.1 hne
    have hassoc : before ++ (ph, actual) :: after = before ++ [(ph, actual)] ++ after := by
      rw [append_assoc, singleton_append]
    have hnot : ph ∉ before.map Prod.fst := by
      rw [map_append, nodup_append] at hnodup
      intro hmem
      exact hnodup.2.2 ph hmem ph mem_cons_self rfl
    have hbegins := h [] (ph, actual) after rfl
    rw [append_nil] at hbegins
    have hreplace : Str.replace ph actual (filled (contents before) pieces) =
        filled (contents (before ++ [(ph, actual)])) pieces := replace_filled hph hnot hbegins
    have hstep : (if Str.contains (filled (contents before) pieces) ph
        then Str.replace ph actual (filled (contents before) pieces)
        else filled (contents before) pieces) =
          filled (contents (before ++ [(ph, actual)])) pieces := by
      split
      · exact hreplace
      · next hcontains =>
        rw [← hreplace, Str.replace_of_not_contains (by simpa using hcontains)]
    rw [foldl_cons, hassoc]
    rw [hassoc] at hnodup
    dsimp only
    rw [hstep]
    refine ih hrest hnodup fun mid paste rest heq => ?_
    have hmid := h ((ph, actual) :: mid) paste rest (by rw [heq, cons_append])
    rwa [append_cons] at hmid

/-! ## The pieces of a text area -/

variable {elements : List TextElement} {cursor : Nat}

theorem slice_append_dropBytes {a b : Nat} (ha : IsBoundary text a) (hb : IsBoundary text b)
    (hab : a ≤ b) : Str.slice text a b ++ Str.dropBytes b text = Str.dropBytes a text := by
  obtain ⟨l, m, r, rfl, rfl, rfl⟩ := ha.exists_append hb hab
  rw [Str.slice_append, Str.dropBytes_boundary, append_assoc, Str.dropBytes_boundary]

theorem slice_self (h : IsBoundary text cursor) : Str.slice text cursor cursor = [] :=
  append_left_eq_self.1 (slice_append_dropBytes h h (Nat.le_refl cursor))

theorem slice_to_end (h : IsBoundary text cursor) :
    Str.slice text cursor (Str.utf8Size text) = Str.dropBytes cursor text := by
  have happend := slice_append_dropBytes h (Str.isBoundary_utf8Size text) h.le
  have hend : Str.dropBytes (Str.utf8Size text) text = [] := by
    have hdrop := Str.dropBytes_boundary text []
    rwa [append_nil] at hdrop
  rwa [hend, append_nil] at happend

theorem ElementsWf.tail {e : TextElement} (h : ElementsWf text (e :: elements)) :
    ElementsWf text elements := h.sublist (sublist_cons_self e elements)

theorem ElementsWf.stop_le_start_of_mem {e f : TextElement} (h : ElementsWf text (e :: elements))
    (hf : f ∈ elements) : e.range.stop ≤ f.range.start :=
  (pairwise_cons.1 h.sorted).1 f hf

theorem filled_piecesFrom (h : ElementsWf text elements) (hcursor : IsBoundary text cursor)
    (hle : ∀ e ∈ elements, cursor ≤ e.range.start) :
    filled (fun _ text => text) (piecesFrom text cursor elements) = Str.dropBytes cursor text := by
  induction elements generalizing cursor with
  | nil =>
    rw [piecesFrom, filled, filled, append_nil, slice_to_end hcursor]
  | cons e elements ih =>
    have haligned := h.aligned mem_cons_self
    rw [piecesFrom, filled, filled,
      ih h.tail haligned.stop (fun f hf => h.stop_le_start_of_mem hf),
      slice_append_dropBytes haligned.start haligned.stop haligned.le,
      slice_append_dropBytes hcursor haligned.start (hle e mem_cons_self)]

theorem filled_pieces {a : TextArea} (h : ElementsWf a.text a.elements) :
    filled (contents []) a.pieces = a.text := by
  have hall := filled_piecesFrom h (Str.isBoundary_zero a.text) fun e _ => Nat.zero_le _
  exact hall.trans (Str.dropBytes_boundary [] a.text)

/-! ## The walk over the elements -/

/-- Elements as they are handed over. -/
def userElements (text : Str) (elements : List TextElement) : List UserTextElement :=
  elements.map fun e => ⟨e.range, Str.get? text e.range.start e.range.stop⟩

/-- A queue holds the content of each placeholder that is still to come. -/
theorem expandLoop_eq {queues : Str → List Str} {rebuilt : Str}
    {rebuiltElements : List UserTextElement} (h : ElementsWf text elements)
    (hcursor : IsBoundary text cursor) (hle : ∀ e ∈ elements, cursor ≤ e.range.start)
    (hqueues : ∀ x ∈ snapshots text elements, queues x.2 = (pastes.lookup x.2).toList)
    (hnodup : ((snapshots text elements).map Prod.snd).Nodup) :
    (ChatComposer.expandLoop text queues cursor rebuilt rebuiltElements
      (userElements text elements)).1 =
        rebuilt ++ filled (contents pastes) (piecesFrom text cursor elements) := by
  induction elements generalizing cursor queues rebuilt rebuiltElements with
  | nil =>
    rw [userElements, map_nil, ChatComposer.expandLoop, piecesFrom, filled, filled,
      append_nil]
    dsimp only
    split
    · rfl
    · next hend =>
      have heq : cursor = Str.utf8Size text := by
        have hbound := hcursor.le
        omega
      rw [heq, slice_self (Str.isBoundary_utf8Size text), append_nil]
  | cons e elements ih =>
    have haligned := h.aligned mem_cons_self
    have hstart := Nat.min_eq_left haligned.start.le
    have hstop := Nat.min_eq_left haligned.stop.le
    have hget := Str.get?_eq_slice haligned.start haligned.stop haligned.le
    have hgap : (if e.range.start > cursor then rebuilt ++ Str.slice text cursor e.range.start
        else rebuilt) = rebuilt ++ Str.slice text cursor e.range.start := by
      split
      · rfl
      · next hgt =>
        have heq : cursor = e.range.start := by
          have hcut := hle e mem_cons_self
          omega
        rw [heq, slice_self haligned.start, append_nil]
    have hqueue := hqueues (e.snapshot text) mem_cons_self
    obtain ⟨hnew, hrest⟩ := nodup_cons.1 hnodup
    rw [TextElement.snapshot] at hqueue hnew
    rw [userElements, map_cons, ChatComposer.expandLoop]
    simp only [UserTextElement.placeholderIn, hget, hstart, hstop, hgap, if_neg haligned.le.not_gt,
      Option.orElse_eq_orElse, Option.orElse_some, Option.map_some, Option.getD_some, hqueue]
    rw [piecesFrom, filled, filled, contents]
    have hle' : ∀ f ∈ elements, e.range.stop ≤ f.range.start :=
      fun f hf => h.stop_le_start_of_mem hf
    have hqueues' : ∀ x ∈ snapshots text elements, queues x.2 = (pastes.lookup x.2).toList :=
      fun x hx => hqueues x (mem_cons_of_mem _ hx)
    cases hlookup : pastes.lookup (Str.slice text e.range.start e.range.stop) with
    | none =>
      simp only [Option.toList_none, Option.getD_none]
      rw [← userElements, ih h.tail haligned.stop hle' hqueues' hrest, append_assoc,
        append_assoc]
    | some actual =>
      simp only [Option.toList_some, Option.getD_some]
      rw [← userElements, ih h.tail haligned.stop hle' ?_ hrest, append_assoc,
        append_assoc]
      intro x hx
      have hother : x.2 ≠ Str.slice text e.range.start e.range.stop := by
        intro heq
        have hmem := mem_map_of_mem (f := Prod.snd) hx
        rw [heq] at hmem
        exact hnew hmem
      rw [Function.update_of_ne hother, hqueues' x hx]

/-- The walk fills in the contents of distinct elements. -/
theorem expandPendingPastes_eq {a : TextArea} (h : ElementsWf a.text a.elements)
    (hpastes : (pastes.map Prod.fst).Nodup)
    (hnodup : (a.textElementSnapshots.map Prod.snd).Nodup) :
    (ChatComposer.expandPendingPastes a.text a.textElements pastes).1 =
      filled (contents pastes) a.pieces := by
  rw [ChatComposer.expandPendingPastes]
  split
  · next hnone =>
    rcases hnone with rfl | hnone
    · exact (filled_pieces h).symm
    · have hnil : a.elements = [] := map_eq_nil_iff.1 hnone
      rw [TextArea.pieces, hnil, piecesFrom, filled, filled, append_nil,
        slice_to_end (Str.isBoundary_zero a.text)]
      exact (Str.dropBytes_boundary [] a.text).symm
  · have hsorted : a.textElements.insertionSort
        (fun e f => e.byteRange.start ≤ f.byteRange.start) = userElements a.text a.elements := by
      refine List.Pairwise.insertionSort_eq (pairwise_map.2 ?_)
      exact h.sorted.imp_of_mem fun he _ hle => (h.nonempty _ he).le.trans hle
    dsimp only
    rw [hsorted, expandLoop_eq h (Str.isBoundary_zero a.text) (fun e _ => Nat.zero_le _)
      (fun x _ => Queues.ofList_eq_lookup hpastes x.2) hnodup]
    rfl

namespace ChatComposer

/-- No placeholder of a pending paste begins in the text but at its own element, with the contents
of the pastes before it filled in. -/
def PastesApart (c : ChatComposer) : Prop :=
  ∀ i, (h : i < c.pendingPastes.length) →
    BeginsAtElements (contents (c.pendingPastes.take i)) c.pendingPastes[i].1 c.textarea.pieces

instance (c : ChatComposer) : Decidable c.PastesApart :=
  inferInstanceAs (Decidable (∀ i, (h : i < c.pendingPastes.length) → _))

theorem currentTextWithPending_eq {c : ChatComposer}
    (h : ElementsWf c.textarea.text c.textarea.elements)
    (hne : ∀ paste ∈ c.pendingPastes, paste.1 ≠ [])
    (hpastes : (c.pendingPastes.map Prod.fst).Nodup) (hapart : c.PastesApart) :
    c.currentTextWithPending = filled (contents c.pendingPastes) c.textarea.pieces := by
  have hbegins : ∀ mid paste rest, c.pendingPastes = mid ++ paste :: rest →
      BeginsAtElements (contents ([] ++ mid)) paste.1 c.textarea.pieces := by
    intro mid paste rest heq
    have hlt : mid.length < c.pendingPastes.length := by
      rw [heq, length_append, length_cons]
      omega
    have hmid := hapart mid.length hlt
    have htake : c.pendingPastes.take mid.length = mid := by rw [heq, take_left]
    have hget : c.pendingPastes[mid.length] = paste := by simp [heq]
    rwa [htake, hget] at hmid
  have hnodup : (([] ++ c.pendingPastes).map Prod.fst).Nodup := hpastes
  have hall := foldl_replace hne hnodup hbegins
  rwa [filled_pieces h] at hall

end ChatComposer

end SheriMl.Tui
