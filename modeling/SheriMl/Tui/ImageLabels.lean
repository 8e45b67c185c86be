import Mathlib.Data.List.NodupEquivFin
import Mathlib.Order.WellFounded
import SheriMl.Tui.ChatComposer
import SheriMl.Tui.TextAreaRuns

/-!
# The labels of attached images

An attached image is tied to a text element by its placeholder: the element's text, and no other
element's (`IsTied`). The placeholders are labels that count on from the remote images, and they are
written anew, one by one and found by their old text, whenever the count changes. A label that is
written before its old bearer has lost it can then be found twice. `RelabelFits` says when the right
element is found nonetheless (`relabel_tied`); between the steps of a run that fit, every image stays
tied to its element (`labelled_of_run`). Two images in the order of the text change places when a
remote image comes before them (`not_labelled_of_remote_image`).
-/

namespace SheriMl.Tui

open List

open Transition (Run)

theorem localImageLabelText_inj {m n : Nat} (h : localImageLabelText m = localImageLabelText n) :
    m = n := by
  have hdigits := append_cancel_left (append_cancel_right h)
  exact Decimal.toString_inj hdigits

/-- The path that an image was attached from, and the element it was attached to. -/
structure Tie where
  path : Str
  id : Nat
  deriving DecidableEq

/-- The placeholder is the text of the element, and of no other. -/
structure IsTied (elements : List (Nat × Str)) (img : AttachedImage) (tie : Tie) : Prop where
  path : img.path = tie.path
  mem : (tie.id, img.placeholder) ∈ elements
  unique : ∀ x ∈ elements, x.2 = img.placeholder → x.1 = tie.id

structure AllTied (elements : List (Nat × Str)) (images : List AttachedImage) (ties : List Tie) :
    Prop where
  length : images.length = ties.length
  tied : ∀ (i : Nat) (img : AttachedImage) (tie : Tie), images[i]? = some img →
    ties[i]? = some tie → IsTied elements img tie

/-- Labels from the first one after the remote images. -/
def NumberedFrom (remote : Nat) (images : List AttachedImage) : Prop :=
  ∀ (i : Nat) (img : AttachedImage), images[i]? = some img → img.placeholder = localImageLabelText (remote + i + 1)

/-- Nothing stands in the way of new labels: no other element has one of them, and where an image
still has the new label of an image before it, its element comes before that image's in the text. -/
structure RelabelFits (elements : List (Nat × Str)) (images : List AttachedImage) (remote : Nat) :
    Prop where
  nodup : (images.map AttachedImage.placeholder).Nodup
  no_foreign : ∀ i < images.length, ∀ x ∈ elements, x.2 = localImageLabelText (remote + i + 1) →
    x.2 ∈ images.map AttachedImage.placeholder
  before : ∀ (k i : Nat) (img img' : AttachedImage), k < i → images[k]? = some img → images[i]? = some img' →
    img'.placeholder = localImageLabelText (remote + k + 1) →
      [img'.placeholder, img.placeholder].Sublist (elements.map Prod.snd)

namespace ChatComposer

/-- The state of the attached images that editing goes on from. -/
structure Tied (c : ChatComposer) (ties : List Tie) : Prop where
  aligned : c.textarea.Aligned
  tied : AllTied c.textarea.textElementSnapshots c.attachedImages ties

def Numbered (c : ChatComposer) : Prop := NumberedFrom c.remoteImageUrls.length c.attachedImages

/-- Every image is tied to its element, by labels that are distinct and count on from the remote
images. -/
structure Labelled (c : ChatComposer) (ties : List Tie) : Prop extends Tied c ties where
  distinct : (c.attachedImages.map AttachedImage.placeholder).Nodup
  numbered : c.Numbered

end ChatComposer

variable {elements : List (Nat × Str)} {images : List AttachedImage} {ties : List Tie}
variable {img : AttachedImage} {tie : Tie} {remote i j k : Nat} {c : ChatComposer}

theorem NumberedFrom.distinct (h : NumberedFrom remote images) :
    (images.map AttachedImage.placeholder).Nodup := by
  rw [nodup_iff_getElem?_ne_getElem?]
  intro i j hij hj heq
  rw [length_map] at hj
  have hi := hij.trans hj
  simp only [List.getElem?_map, List.getElem?_eq_getElem hi, List.getElem?_eq_getElem hj,
    Option.map_some, Option.some.injEq] at heq
  rw [h i _ (List.getElem?_eq_getElem hi), h j _ (List.getElem?_eq_getElem hj)] at heq
  have hsame := localImageLabelText_inj heq
  omega

theorem AllTied.id_inj (h : AllTied elements images ties)
    (hnodup : (images.map AttachedImage.placeholder).Nodup)
    (hids : (elements.map Prod.fst).Nodup) {tie' : Tie} (hi : ties[i]? = some tie)
    (hj : ties[j]? = some tie') (heq : tie.id = tie'.id) : i = j := by
  have hi' := (List.getElem?_eq_some_iff.1 hi).1
  have hj' := (List.getElem?_eq_some_iff.1 hj).1
  rw [← h.length] at hi' hj'
  have hti := h.tied i _ _ (List.getElem?_eq_getElem hi') hi
  have htj := h.tied j _ _ (List.getElem?_eq_getElem hj') hj
  have hsame := inj_on_of_nodup_map hids hti.mem htj.mem heq
  have hplaceholder := congrArg Prod.snd hsame
  dsimp only at hplaceholder
  have hmap : (images.map AttachedImage.placeholder)[i]? =
      (images.map AttachedImage.placeholder)[j]? := by
    rw [List.getElem?_map, List.getElem?_map, List.getElem?_eq_getElem hi',
      List.getElem?_eq_getElem hj', Option.map_some, Option.map_some, hplaceholder]
  exact (List.getElem?_inj (by rwa [length_map]) hnodup).1 hmap

/-! ## The loop -/

/-- What comes before an element in a sublist comes before it in the list. -/
theorem mem_left_of_pair_sublist {α : Type} {a b : α} {l r : List α}
    (hnodup : (l ++ b :: r).Nodup) (h : [a, b].Sublist (l ++ b :: r)) : a ∈ l := by
  have hr : b ∉ r := fun hb => (nodup_cons.1 (nodup_append.1 hnodup).2.1).1 hb
  obtain ⟨l₁, l₂, heq, hl, hbr⟩ := sublist_append_iff.1 h
  cases l₁ with
  | cons x l₁ =>
    obtain ⟨rfl, -⟩ := List.cons.inj heq
    exact hl.subset mem_cons_self
  | nil =>
    obtain rfl : [a, b] = l₂ := heq
    rcases sublist_cons_iff.1 hbr with hsub | ⟨rest, heq, hsub⟩
    · exact absurd (hsub.subset (by simp)) hr
    · obtain ⟨-, rfl⟩ := List.cons.inj heq
      exact absurd (hsub.subset mem_cons_self) hr

/-- The state of the loop before its turn at `j`. -/
structure Relabelled (elements : List (Nat × Str)) (images : List AttachedImage) (ties : List Tie)
    (remote j : Nat) (c : ChatComposer) : Prop where
  aligned : c.textarea.Aligned
  remote_eq : c.remoteImageUrls.length = remote
  images_eq : ∀ i : Nat, c.attachedImages[i]? = images[i]?.map fun img =>
    if i < j then { img with placeholder := localImageLabelText (remote + i + 1) } else img
  ids_eq : c.textarea.textElementSnapshots.map Prod.fst = elements.map Prod.fst
  texts : ∀ x ∈ c.textarea.textElementSnapshots,
    (∃ i tie, i < j ∧ ties[i]? = some tie ∧ x = (tie.id, localImageLabelText (remote + i + 1))) ∨
      x ∈ elements ∧ ∀ i tie, i < j → ties[i]? = some tie → x.1 ≠ tie.id

section Loop

variable (htied : AllTied elements images ties) (hfits : RelabelFits elements images remote)
variable (hids : (elements.map Prod.fst).Nodup)

include htied hfits hids

/-- An image whose turn is still to come is tied as before. -/
theorem Relabelled.mem_of_le (h : Relabelled elements images ties remote j c) (hj : j ≤ i)
    (himg : images[i]? = some img) (htie : ties[i]? = some tie) :
    (tie.id, img.placeholder) ∈ c.textarea.textElementSnapshots := by
  have hold := htied.tied i img tie himg htie
  have hid : tie.id ∈ c.textarea.textElementSnapshots.map Prod.fst := by
    rw [h.ids_eq]
    exact mem_map_of_mem hold.mem
  obtain ⟨x, hx, hxid⟩ := mem_map.1 hid
  obtain ⟨i', tie', hi', htie', rfl⟩ | ⟨hmem, -⟩ := h.texts x hx
  · have hsame := htied.id_inj hfits.nodup hids htie' htie hxid
    omega
  · rwa [← inj_on_of_nodup_map hids hmem hold.mem hxid]

/-- The first element with the old label is the one that the image is tied to. -/
theorem Relabelled.id_eq (h : Relabelled elements images ties remote j c)
    (himg : images[j]? = some img) (htie : ties[j]? = some tie) {l r : List (Nat × Str)} {id : Nat}
    (hsplit : c.textarea.textElementSnapshots = l ++ (id, img.placeholder) :: r)
    (hl : ∀ x ∈ l, x.2 ≠ img.placeholder) : id = tie.id := by
  have hx : (id, img.placeholder) ∈ c.textarea.textElementSnapshots := by
    rw [hsplit]
    exact mem_append_right _ mem_cons_self
  obtain ⟨i, tie', hi, htie', heq⟩ | ⟨hmem, -⟩ := h.texts _ hx
  · -- a label that has been written is the old label of this image
    obtain ⟨hid, hlabel⟩ := Prod.mk.inj heq
    have hi' := (List.getElem?_eq_some_iff.1 htie').1
    rw [← htied.length] at hi'
    have himg' := List.getElem?_eq_getElem hi'
    have hsub := hfits.before i j _ img hi himg' himg hlabel
    obtain ⟨pair, hpair, hmap⟩ := sublist_map_iff.1 hsub
    obtain ⟨x, rest, rfl, hx, hrest⟩ := map_eq_cons_iff.1 hmap.symm
    obtain ⟨y, rfl, hy⟩ := map_eq_singleton_iff.1 hrest
    have hxold := (htied.tied j img tie himg htie).unique x (hpair.subset (by simp)) hx
    have hyold := (htied.tied i _ tie' himg' htie').unique y (hpair.subset (by simp)) hy
    have hpairIds := hpair.map Prod.fst
    rw [map_cons, map_singleton, hxold, hyold, ← h.ids_eq, hsplit, map_append,
      map_cons, hid] at hpairIds
    have hnodup := hids
    rw [← h.ids_eq, hsplit, map_append, map_cons, hid] at hnodup
    obtain ⟨z, hz, hzid⟩ := mem_map.1 (mem_left_of_pair_sublist hnodup hpairIds)
    have hzmem : z ∈ c.textarea.textElementSnapshots := by
      rw [hsplit]
      exact mem_append_left _ hz
    have hpending := h.mem_of_le htied hfits hids (Nat.le_refl j) himg htie
    have hznodup := hids
    rw [← h.ids_eq] at hznodup
    have hzeq := inj_on_of_nodup_map hznodup hzmem hpending hzid
    exact absurd (congrArg Prod.snd hzeq) (hl z hz)
  · exact (htied.tied j img tie himg htie).unique _ hmem rfl

/-- One turn of the loop. -/
theorem Relabelled.step (h : Relabelled elements images ties remote j c)
    (himg : images[j]? = some img) (htie : ties[j]? = some tie) :
    Relabelled elements images ties remote (j + 1) (c.relabelAttachedImage j) := by
  have hcur : c.attachedImages[j]? = some img := by
    rw [h.images_eq, himg, Option.map_some, if_neg (Nat.lt_irrefl j)]
  have hpending := h.mem_of_le htied hfits hids (Nat.le_refl j) himg htie
  have hnodup := hids
  rw [← h.ids_eq] at hnodup
  simp only [ChatComposer.relabelAttachedImage, hcur, h.remote_eq]
  split
  next hsame =>
    refine ⟨h.aligned, h.remote_eq, fun i => ?_, h.ids_eq, fun x hx => ?_⟩
    · rw [h.images_eq]
      by_cases hij : i = j
      · subst hij
        rw [himg, Option.map_some, Option.map_some, if_neg (Nat.lt_irrefl i),
          if_pos (Nat.lt_succ_self i), ← hsame]
      · have hlt : i < j + 1 ↔ i < j := by omega
        simp only [hlt]
    · by_cases hid : x.1 = tie.id
      · have heq := inj_on_of_nodup_map hnodup hx hpending hid
        exact .inl ⟨j, tie, Nat.lt_succ_self j, htie, by rw [heq, hsame]⟩
      · obtain ⟨i, tie', hi, htie', heq⟩ | ⟨hmem, hnot⟩ := h.texts x hx
        · exact .inl ⟨i, tie', by omega, htie', heq⟩
        · refine .inr ⟨hmem, fun i tie' hi htie' => ?_⟩
          by_cases hij : i = j
          · subst hij
            rw [htie] at htie'
            obtain rfl := Option.some.inj htie'
            exact hid
          · exact hnot i tie' (by omega) htie'
  next hne =>
    obtain ⟨l, id, r, hsplit, hl, hwf, hnew, -⟩ := h.aligned.replaceElementPayload
      (localImageLabelText_ne_nil (remote + j + 1)) ⟨_, hpending, rfl⟩
    obtain rfl := h.id_eq htied hfits hids himg htie hsplit hl
    have hother : ∀ x, x ∈ l ∨ x ∈ r → x.1 ≠ tie.id := by
      intro x hx heq
      rw [hsplit, map_append, map_cons, perm_middle.nodup_iff, nodup_cons,
        ← map_append] at hnodup
      have hmem := mem_map_of_mem (f := Prod.fst) (mem_append.2 hx)
      rw [heq] at hmem
      exact hnodup.1 hmem
    refine ⟨hwf.toAligned, h.remote_eq, fun i => ?_, ?_, fun x hx => ?_⟩
    · by_cases hij : i = j
      · subst hij
        have hlt := (List.getElem?_eq_some_iff.1 hcur).1
        rw [List.getElem?_set_self hlt, himg, Option.map_some, if_pos (Nat.lt_succ_self i)]
      · have hlt : i < j + 1 ↔ i < j := by omega
        rw [List.getElem?_set_ne (Ne.symm hij), h.images_eq]
        simp only [hlt]
    · rw [← h.ids_eq, hnew, hsplit, map_append, map_append, map_cons, map_cons]
    · rw [hnew, perm_middle.mem_iff] at hx
      rcases mem_cons.1 hx with rfl | hx
      · exact .inl ⟨j, tie, Nat.lt_succ_self j, htie, rfl⟩
      · have hne' := hother x (mem_append.1 hx)
        have hxold : x ∈ c.textarea.textElementSnapshots := by
          rw [hsplit, perm_middle.mem_iff]
          exact mem_cons_of_mem _ hx
        obtain ⟨i, tie', hi, htie', heq⟩ | ⟨hmem, hnot⟩ := h.texts x hxold
        · exact .inl ⟨i, tie', by omega, htie', heq⟩
        · refine .inr ⟨hmem, fun i tie' hi htie' => ?_⟩
          by_cases hij : i = j
          · subst hij
            rw [htie] at htie'
            obtain rfl := Option.some.inj htie'
            exact hne'
          · exact hnot i tie' (by omega) htie'

/-- All turns up to the one at `j`. -/
theorem relabelled_foldl (h : Relabelled elements images ties remote 0 c)
    (hj : j ≤ images.length) :
    Relabelled elements images ties remote j
      ((List.range j).foldl ChatComposer.relabelAttachedImage c) := by
  induction j with
  | zero => exact h
  | succ j ih =>
    have hlt : j < images.length := hj
    have htie : j < ties.length := htied.length ▸ hlt
    rw [range_succ, foldl_append]
    exact (ih hlt.le).step htied hfits hids (List.getElem?_eq_getElem hlt)
      (List.getElem?_eq_getElem htie)

/-- After the last turn every image is tied by its new label. -/
theorem Relabelled.labelled (h : Relabelled elements images ties remote images.length c) :
    c.Labelled ties := by
  have himages : c.attachedImages = images.mapIdx fun i img =>
      { img with placeholder := localImageLabelText (remote + i + 1) } := by
    refine ext_getElem? fun i => ?_
    rw [h.images_eq, List.getElem?_mapIdx]
    cases himg : images[i]? with
    | none => rfl
    | some img => rw [Option.map_some, Option.map_some,
        if_pos (List.getElem?_eq_some_iff.1 himg).1]
  have hnumbered : NumberedFrom c.remoteImageUrls.length c.attachedImages := by
    intro i img himg
    rw [himages, List.getElem?_mapIdx] at himg
    obtain ⟨old, -, rfl⟩ := Option.map_eq_some_iff.1 himg
    rw [h.remote_eq]
  refine ⟨⟨h.aligned, ?_, ?_⟩, hnumbered.distinct, hnumbered⟩
  · rw [himages, length_mapIdx, htied.length]
  · intro i img tie himg htie
    rw [himages, List.getElem?_mapIdx] at himg
    obtain ⟨old, hold, rfl⟩ := Option.map_eq_some_iff.1 himg
    have hi := (List.getElem?_eq_some_iff.1 hold).1
    have hwas := htied.tied i old tie hold htie
    refine ⟨hwas.path, ?_, fun x hx heq => ?_⟩
    · have hid : tie.id ∈ c.textarea.textElementSnapshots.map Prod.fst := by
        rw [h.ids_eq]
        exact mem_map_of_mem hwas.mem
      obtain ⟨x, hx, hxid⟩ := mem_map.1 hid
      obtain ⟨i', tie', -, htie', rfl⟩ | ⟨-, hnot⟩ := h.texts x hx
      · obtain rfl := htied.id_inj hfits.nodup hids htie' htie hxid
        dsimp only at hxid
        rwa [hxid] at hx
      · exact absurd hxid (hnot i tie hi htie)
    · obtain ⟨i', tie', -, htie', rfl⟩ | ⟨hmem, hnot⟩ := h.texts x hx
      · have hlabel := localImageLabelText_inj heq
        obtain rfl : i' = i := by omega
        rw [htie] at htie'
        rw [Option.some.inj htie']
      · -- an element with the new label that is not among the images would be foreign
        obtain ⟨img, himg, hplaceholder⟩ := mem_map.1 (hfits.no_foreign i hi x hmem heq)
        obtain ⟨m, hm⟩ := mem_iff_getElem?.1 himg
        have hlt := (List.getElem?_eq_some_iff.1 hm).1
        have hmlt : m < ties.length := htied.length ▸ hlt
        have hm' := List.getElem?_eq_getElem hmlt
        exact absurd ((htied.tied m img _ hm hm').unique x hmem hplaceholder.symm)
          (hnot m _ hlt hm')

end Loop

/-- Where new labels fit, the loop leaves every image tied to its element. -/
theorem ChatComposer.relabel_tied (h : c.Tied ties)
    (hfits : RelabelFits c.textarea.textElementSnapshots c.attachedImages
      c.remoteImageUrls.length) :
    c.relabelAttachedImagesAndUpdatePlaceholders.Labelled ties := by
  have hids : (c.textarea.textElementSnapshots.map Prod.fst).Nodup := by
    rw [TextArea.map_fst_snapshots]
    exact h.aligned.elements_wf.ids_nodup
  have hstart : Relabelled c.textarea.textElementSnapshots c.attachedImages ties
      c.remoteImageUrls.length 0 c := by
    refine ⟨h.aligned, rfl, fun i => ?_, rfl, fun x hx => .inr ⟨hx, fun i tie hi => ?_⟩⟩
    · simp only [Nat.not_lt_zero, if_false, Option.map_id_fun', id_eq]
    · exact absurd hi (Nat.not_lt_zero i)
  have hend := relabelled_foldl h.tied hfits hids hstart (Nat.le_refl _)
  exact hend.labelled h.tied hfits hids

/-- At an index into a list with one more at its end. -/
theorem getElem?_concat_eq_some {α : Type} {l : List α} {a b : α} (h : (l ++ [a])[i]? = some b) :
    l[i]? = some b ∨ i = l.length ∧ b = a := by
  rcases Nat.lt_or_ge i l.length with hlt | hge
  · rw [List.getElem?_append_left hlt] at h
    exact .inl h
  · rw [List.getElem?_append_right hge, List.getElem?_singleton,
      Option.ite_none_right_eq_some] at h
    exact .inr ⟨by omega, (Option.some.inj h.2).symm⟩

namespace ChatComposer

variable {p : ComposerPlatform} {event : KeyEvent}

theorem Tied.attachImage (h : c.Tied ties) (hnumbered : c.Numbered)
    (hfree : ∀ x ∈ c.textarea.textElementSnapshots, x.2 ≠
      localImageLabelText (c.remoteImageUrls.length + c.attachedImages.length + 1))
    (hfresh : c.textarea.HasFreshId) (path : Str) :
    (c.attachImage path).Labelled (ties ++ [⟨path, c.textarea.nextElementId⟩]) := by
  have hinserts := h.aligned.insertElement (localImageLabelText_ne_nil
    (c.remoteImageUrls.length + c.attachedImages.length + 1)) hfresh
  have hnew : (c.attachImage path).Numbered := by
    intro i img himg
    obtain himg | ⟨rfl, rfl⟩ := getElem?_concat_eq_some himg
    · exact hnumbered i img himg
    · rfl
  refine ⟨⟨hinserts.wf.toAligned, ?_, fun i img tie himg htie => ?_⟩, hnew.distinct, hnew⟩
  · simp only [ChatComposer.attachImage, length_append, h.tied.length, length_singleton]
  have hmem : ∀ x ∈ (c.attachImage path).textarea.textElementSnapshots,
      x = (c.textarea.nextElementId, localImageLabelText
        (c.remoteImageUrls.length + c.attachedImages.length + 1)) ∨
        x ∈ c.textarea.textElementSnapshots := fun x hx =>
    mem_cons.1 (hinserts.perm.mem_iff.1 hx)
  have hlength := h.tied.length
  obtain himg | ⟨hi, rfl⟩ := getElem?_concat_eq_some himg
  · have hlt := (List.getElem?_eq_some_iff.1 himg).1
    obtain htie | ⟨hi, -⟩ := getElem?_concat_eq_some htie
    · have hold := h.tied.tied i img tie himg htie
      refine ⟨hold.path, hinserts.sublist.subset hold.mem, fun x hx heq => ?_⟩
      obtain rfl | hx := hmem x hx
      · have hlabel := localImageLabelText_inj (heq.trans (hnumbered i img himg))
        omega
      · exact hold.unique x hx heq
    · omega
  · obtain htie | ⟨-, rfl⟩ := getElem?_concat_eq_some htie
    · have hlt := (List.getElem?_eq_some_iff.1 htie).1
      omega
    · refine ⟨rfl, hinserts.perm.mem_iff.2 mem_cons_self, fun x hx heq => ?_⟩
      obtain rfl | hx := hmem x hx
      · rfl
      · exact absurd heq (hfree x hx)

/-! ## Deleting -/

theorem elementPayloads_eq {a : TextArea} (h : a.Aligned) :
    a.elementPayloads = a.textElementSnapshots.map Prod.snd := by
  rw [TextArea.elementPayloads, TextArea.textElementSnapshots, snapshots, map_map]
  refine filterMap_eq_map_iff_forall_eq_some.2 fun e he => ?_
  have hr := h.elements_wf.aligned he
  rw [Str.get?_eq_slice hr.start hr.stop hr.le]
  rfl

/-- Where placeholders are distinct, erasing the first that is equal erases all of them. -/
theorem eraseP_eq_filter {images : List AttachedImage} (removed : Str)
    (hnodup : (images.map AttachedImage.placeholder).Nodup) :
    images.eraseP (fun img => img.placeholder = removed) =
      images.filter fun img => img.placeholder ≠ removed := by
  induction images with
  | nil => rfl
  | cons img images ih =>
    rw [map_cons, nodup_cons] at hnodup
    by_cases heq : img.placeholder = removed
    · have hothers : ∀ img' ∈ images, decide (img'.placeholder ≠ removed) = true := by
        intro img' himg'
        refine decide_eq_true fun heq' => hnodup.1 ?_
        rw [heq, ← heq']
        exact mem_map_of_mem himg'
      rw [eraseP_cons_of_pos (by simpa using heq), filter_cons_of_neg (by simpa using heq),
        filter_eq_self.2 hothers]
    · rw [eraseP_cons_of_neg (by simpa using heq), filter_cons_of_pos (by simpa using heq),
        ih hnodup.2]

theorem foldl_dropRemoved (removed : List Str) (c : ChatComposer) (any : Bool)
    (hnodup : (c.attachedImages.map AttachedImage.placeholder).Nodup) :
    (removed.foldl dropRemoved (c, any)).1.attachedImages =
        c.attachedImages.filter (fun img => img.placeholder ∉ removed) ∧
      (removed.foldl dropRemoved (c, any)).1.textarea = c.textarea ∧
      (removed.foldl dropRemoved (c, any)).1.remoteImageUrls = c.remoteImageUrls ∧
      (removed.foldl dropRemoved (c, any)).2 =
        (any || c.attachedImages.any fun img => img.placeholder ∈ removed) := by
  induction removed generalizing c any with
  | nil => simp
  | cons ph removed ih =>
    have herase := eraseP_eq_filter ph hnodup
    obtain ⟨himages, htext, hremote, hany⟩ := ih (dropRemoved (c, any) ph).1
      (dropRemoved (c, any) ph).2 (by
        dsimp only [dropRemoved]
        rw [herase]
        exact hnodup.sublist (filter_sublist.map _))
    refine ⟨?_, htext, hremote, ?_⟩
    · rw [foldl_cons, himages]
      dsimp only [dropRemoved]
      rw [herase, filter_filter]
      refine filter_congr fun img _ => ?_
      simp only [mem_cons, not_or, Bool.decide_and, Bool.and_comm]
    · rw [foldl_cons, hany]
      dsimp only [dropRemoved]
      rw [herase, Bool.or_assoc, Bool.eq_iff_iff]
      simp only [Bool.or_eq_true, any_eq_true, mem_filter, decide_eq_true_eq,
        mem_cons]
      refine or_congr_right ⟨?_, ?_⟩
      · rintro (⟨img, himg, heq⟩ | ⟨img, ⟨himg, -⟩, hmem⟩)
        · exact ⟨img, himg, .inl heq⟩
        · exact ⟨img, himg, .inr hmem⟩
      · rintro ⟨img, himg, hor⟩
        by_cases heq : img.placeholder = ph
        · exact .inl ⟨img, himg, heq⟩
        · exact .inr ⟨img, ⟨himg, heq⟩, hor.resolve_left heq⟩

def kept (left : List (Nat × Str)) (images : List AttachedImage) : List AttachedImage :=
  images.filter fun img => img.placeholder ∈ left.map Prod.snd

def keptTies (left : List (Nat × Str)) (ties : List Tie) : List Tie :=
  ties.filter fun tie => tie.id ∈ left.map Prod.fst

section Left

variable {left : List (Nat × Str)} (hleft : left.Sublist elements)

include hleft

theorem isTied_of_left (h : IsTied elements img tie) (hmem : img.placeholder ∈ left.map Prod.snd) :
    IsTied left img tie := by
  obtain ⟨x, hx, heq⟩ := mem_map.1 hmem
  have hid := h.unique x (hleft.subset hx) heq
  refine ⟨h.path, ?_, fun y hy => h.unique y (hleft.subset hy)⟩
  rwa [← heq, ← hid]

theorem mem_left_iff (hids : (elements.map Prod.fst).Nodup) (h : IsTied elements img tie) :
    img.placeholder ∈ left.map Prod.snd ↔ tie.id ∈ left.map Prod.fst := by
  constructor
  · exact fun hmem => mem_map_of_mem (isTied_of_left hleft h hmem).mem
  · intro hmem
    obtain ⟨x, hx, hid⟩ := mem_map.1 hmem
    have heq := inj_on_of_nodup_map hids (hleft.subset hx) h.mem hid
    have hplaceholder := mem_map_of_mem (f := Prod.snd) hx
    rwa [heq] at hplaceholder

theorem allTied_kept (hids : (elements.map Prod.fst).Nodup) (h : AllTied elements images ties) :
    AllTied left (kept left images) (keptTies left ties) := by
  have hall : List.Forall₂ (IsTied elements) images ties := by
    refine forall₂_iff_get.2 ⟨h.length, fun i hi hi' => ?_⟩
    exact h.tied i _ _ (List.getElem?_eq_getElem hi) (List.getElem?_eq_getElem hi')
  have hkept : List.Forall₂ (IsTied elements) (kept left images) (keptTies left ties) :=
    rel_filter (fun img tie hit => by
      simpa only [decide_eq_true_eq] using mem_left_iff hleft hids hit) hall
  obtain ⟨hlength, hget⟩ := forall₂_iff_get.1 hkept
  refine ⟨hlength, fun i img tie himg htie => ?_⟩
  obtain ⟨hi, rfl⟩ := List.getElem?_eq_some_iff.1 himg
  obtain ⟨hi', rfl⟩ := List.getElem?_eq_some_iff.1 htie
  have hmem := (mem_filter.1 (getElem_mem hi)).2
  exact isTied_of_left hleft (hget i hi hi') (of_decide_eq_true hmem)

end Left

/-- New labels fit where images have gone from among numbered ones: every label moves down. -/
theorem relabelFits_kept (left : List (Nat × Str)) (hnumbered : NumberedFrom remote images) :
    RelabelFits left (kept left images) remote := by
  have hsub : (kept left images).Sublist images := filter_sublist
  obtain ⟨f, hf⟩ := sublist_iff_exists_orderEmbedding_getElem?_eq.1 hsub
  refine ⟨hnumbered.distinct.sublist (hsub.map _), fun i hi x hx heq => ?_,
    fun k i img img' hki _ himg' heq => ?_⟩
  · have hi' := hi.trans_le hsub.length_le
    have himg := List.getElem?_eq_getElem hi'
    have hlabel := hnumbered i _ himg
    rw [heq, ← hlabel]
    refine mem_map_of_mem (mem_filter.2 ⟨getElem_mem hi', decide_eq_true ?_⟩)
    rw [hlabel, ← heq]
    exact mem_map_of_mem hx
  · rw [hf] at himg'
    have hsame := localImageLabelText_inj ((hnumbered _ _ himg').symm.trans heq)
    have hmono : StrictMono f := f.strictMono
    have hle : i ≤ f i := hmono.le_apply
    omega

/-- After a deletion the numbers hold if they did before, or if an image has gone and the new labels
fit the elements that are left. -/
def DeletionFits (c : ChatComposer) (left : List (Nat × Str)) : Prop :=
  c.Numbered ∨
    (∃ img ∈ c.attachedImages, img.placeholder ∉ left.map Prod.snd) ∧
      (c.attachedImages.map AttachedImage.placeholder).Nodup ∧
      RelabelFits left (kept left c.attachedImages) c.remoteImageUrls.length

theorem DeletionFits.nodup {left : List (Nat × Str)} (h : c.DeletionFits left) :
    (c.attachedImages.map AttachedImage.placeholder).Nodup := by
  obtain hnumbered | ⟨-, hnodup, -⟩ := h
  · exact NumberedFrom.distinct hnumbered
  · exact hnodup

theorem DeletionFits.relabelFits {left : List (Nat × Str)} (h : c.DeletionFits left) :
    RelabelFits left (kept left c.attachedImages) c.remoteImageUrls.length := by
  obtain hnumbered | ⟨-, -, hfits⟩ := h
  · exact relabelFits_kept left hnumbered
  · exact hfits

theorem Tied.notMem_removed_iff (h : c.Tied ties) (left : List (Nat × Str))
    (himg : img ∈ c.attachedImages) :
    img.placeholder ∉ c.textarea.elementPayloads.filter (· ∉ left.map Prod.snd) ↔
      img.placeholder ∈ left.map Prod.snd := by
  obtain ⟨i, hi⟩ := mem_iff_getElem?.1 himg
  have hlt : i < ties.length := h.tied.length ▸ (List.getElem?_eq_some_iff.1 hi).1
  have htied := h.tied.tied i img _ hi (List.getElem?_eq_getElem hlt)
  have hbefore : img.placeholder ∈ c.textarea.textElementSnapshots.map Prod.snd :=
    mem_map_of_mem htied.mem
  rw [elementPayloads_eq h.aligned, mem_filter, decide_eq_true_iff]
  tauto

/-- A key leaves the images whose elements are left, tied to them. -/
theorem Tied.inputAndReconcile (hp : p.Lawful) (h : c.Tied ties)
    (hfits : c.DeletionFits (c.textarea.input p.toPlatform event).textElementSnapshots) :
    (c.inputAndReconcile p event).Labelled
      (keptTies (c.textarea.input p.toPlatform event).textElementSnapshots ties) := by
  have hedits := Op.edits_input hp h.aligned event
  have hids : (c.textarea.textElementSnapshots.map Prod.fst).Nodup := by
    rw [TextArea.map_fst_snapshots]
    exact h.aligned.elements_wf.ids_nodup
  have hkept := allTied_kept hedits.snapshots hids h.tied
  simp only [ChatComposer.inputAndReconcile]
  generalize c.textarea.input p.toPlatform event = textarea at hedits hkept hfits
  split
  next hempty =>
    -- without images there is nothing to reconcile
    have hnil : c.attachedImages = [] := by
      simp only [Bool.and_eq_true, List.isEmpty_iff] at hempty
      exact hempty.1.2
    rw [hnil] at hkept
    have hnone : ∀ {P : Nat → AttachedImage → Prop} (i : Nat) (img : AttachedImage),
        c.attachedImages[i]? = some img → P i img := by
      intro P i img himg
      rw [hnil] at himg
      exact absurd himg (by simp)
    refine ⟨⟨hedits.aligned, ?_⟩, hfits.nodup, hnone⟩
    dsimp only
    rw [hnil]
    exact hkept
  next =>
    have hafter := elementPayloads_eq hedits.aligned
    obtain ⟨himages, htext, hremote, hany⟩ := foldl_dropRemoved
      (c.textarea.elementPayloads.filter (· ∉ textarea.elementPayloads))
      { c with textarea := textarea } false hfits.nodup
    simp only [ChatComposer.reconcileDeletedElements]
    generalize (c.textarea.elementPayloads.filter (· ∉ textarea.elementPayloads)).foldl
      dropRemoved ({ c with textarea := textarea }, false) = dropped at himages htext hremote hany
    rw [hafter] at himages hany
    dsimp only at himages hremote hany
    have hkeptImages : dropped.1.attachedImages = kept textarea.textElementSnapshots
        c.attachedImages := by
      rw [himages]
      refine filter_congr fun img himg => ?_
      simp only [h.notMem_removed_iff _ himg]
    have htied : dropped.1.Tied (keptTies textarea.textElementSnapshots ties) := by
      refine ⟨?_, ?_⟩
      · rw [htext]
        exact hedits.aligned
      · rw [htext, hkeptImages]
        exact hkept
    split
    next =>
      refine relabel_tied htied ?_
      rw [htext, hkeptImages, hremote]
      exact hfits.relabelFits
    next hnone =>
      rw [hany, Bool.false_or, any_eq_true] at hnone
      have hall : ∀ img ∈ c.attachedImages,
          img.placeholder ∈ textarea.textElementSnapshots.map Prod.snd := by
        intro img himg
        refine (h.notMem_removed_iff _ himg).1 fun hmem => hnone ⟨img, himg, decide_eq_true hmem⟩
      have hsame : dropped.1.attachedImages = c.attachedImages := by
        rw [hkeptImages]
        exact filter_eq_self.2 fun img himg => decide_eq_true (hall img himg)
      obtain hnumbered | ⟨⟨img, himg, hgone⟩, -⟩ := hfits
      · refine ⟨htied, ?_, ?_⟩
        · rw [hsame]
          exact NumberedFrom.distinct hnumbered
        · unfold Numbered
          rw [hsame, hremote]
          exact hnumbered
      · exact absurd (hall img himg) hgone

/-! ## Remote images -/

/-- Numbers that go down, or up by as many as there are images, do not meet old ones. -/
theorem relabelFits_of_far {remote' : Nat} (h : NumberedFrom remote images)
    (hfar : remote' ≤ remote ∨ remote + images.length ≤ remote')
    (hforeign : ∀ i < images.length, ∀ x ∈ elements,
      x.2 = localImageLabelText (remote' + i + 1) → x.2 ∈ images.map AttachedImage.placeholder) :
    RelabelFits elements images remote' := by
  refine ⟨h.distinct, hforeign, fun k i img img' hki _ himg' heq => ?_⟩
  have hlt := (List.getElem?_eq_some_iff.1 himg').1
  have hsame := localImageLabelText_inj ((h i img' himg').symm.trans heq)
  omega

theorem Tied.setRemoteImageUrls (h : c.Tied ties) {urls : List Str}
    (hfits : RelabelFits c.textarea.textElementSnapshots c.attachedImages urls.length) :
    (c.setRemoteImageUrls urls).Labelled ties :=
  relabel_tied ⟨h.aligned, h.tied⟩ hfits

theorem Tied.removeSelectedRemoteImage (h : c.Tied ties) {idx : Nat}
    (hfits : if idx < c.remoteImageUrls.length then
      RelabelFits c.textarea.textElementSnapshots c.attachedImages (c.remoteImageUrls.length - 1)
      else c.Numbered) :
    (c.removeSelectedRemoteImage idx).Labelled ties := by
  unfold ChatComposer.removeSelectedRemoteImage
  split
  next hge =>
    rw [if_neg (by omega)] at hfits
    exact ⟨⟨h.aligned, h.tied⟩, NumberedFrom.distinct hfits, hfits⟩
  next hlt =>
    rw [if_pos (by omega)] at hfits
    refine relabel_tied ⟨h.aligned, h.tied⟩ ?_
    dsimp only
    rwa [length_eraseIdx_of_lt (by omega)]

end ChatComposer

/-! ## Runs -/

/-- A composer, with the ties of its images. -/
structure TiedComposer where
  composer : ChatComposer
  ties : List Tie

inductive ImageAction where
  | attachImage (path : Str)
  | setRemoteImageUrls (urls : List Str)
  | takeRemoteImageUrls
  | removeSelectedRemoteImage (idx : Nat)
  | key (event : KeyEvent)

namespace TiedComposer

open ChatComposer (kept keptTies)

variable {p : ComposerPlatform} {s t : TiedComposer}

/-- A new image is tied to the new element, and an image whose element is deleted is given up. -/
def next (p : ComposerPlatform) (s : TiedComposer) : ImageAction → TiedComposer
  | .attachImage path =>
    ⟨s.composer.attachImage path, s.ties ++ [⟨path, s.composer.textarea.nextElementId⟩]⟩
  | .setRemoteImageUrls urls => ⟨s.composer.setRemoteImageUrls urls, s.ties⟩
  | .takeRemoteImageUrls => ⟨s.composer.takeRemoteImageUrls, s.ties⟩
  | .removeSelectedRemoteImage idx => ⟨s.composer.removeSelectedRemoteImage idx, s.ties⟩
  | .key event =>
    ⟨s.composer.inputAndReconcile p event,
      keptTies (s.composer.textarea.input p.toPlatform event).textElementSnapshots s.ties⟩

/-- New labels meet neither another element's text nor the old label of an image before whose
element they would be found. -/
def Fits (p : ComposerPlatform) (s : TiedComposer) : ImageAction → Prop
  | .attachImage _ => s.composer.Numbered ∧
    (∀ x ∈ s.composer.textarea.textElementSnapshots, x.2 ≠ localImageLabelText
      (s.composer.remoteImageUrls.length + s.composer.attachedImages.length + 1)) ∧
    s.composer.textarea.HasFreshId
  | .setRemoteImageUrls urls =>
    RelabelFits s.composer.textarea.textElementSnapshots s.composer.attachedImages urls.length
  | .takeRemoteImageUrls =>
    RelabelFits s.composer.textarea.textElementSnapshots s.composer.attachedImages 0
  | .removeSelectedRemoteImage idx =>
    if idx < s.composer.remoteImageUrls.length then
      RelabelFits s.composer.textarea.textElementSnapshots s.composer.attachedImages
        (s.composer.remoteImageUrls.length - 1)
    else s.composer.Numbered
  | .key event => s.composer.DeletionFits
    (s.composer.textarea.input p.toPlatform event).textElementSnapshots

def Step (p : ComposerPlatform) (s : TiedComposer) (action : ImageAction) (t : TiedComposer) :
    Prop := t = s.next p action

/-- A step whose new labels fit. -/
structure FitStep (p : ComposerPlatform) (s : TiedComposer) (action : ImageAction)
    (t : TiedComposer) : Prop where
  step : Step p s action t
  fits : s.Fits p action

theorem FitStep.labelled (hp : p.Lawful) {action : ImageAction} (h : FitStep p s action t)
    (hs : s.composer.Tied s.ties) : t.composer.Labelled t.ties := by
  obtain ⟨rfl, hfits⟩ := h
  cases action with
  | attachImage path => exact hs.attachImage hfits.1 hfits.2.1 hfits.2.2 path
  | setRemoteImageUrls urls | takeRemoteImageUrls => exact hs.setRemoteImageUrls hfits
  | removeSelectedRemoteImage idx => exact hs.removeSelectedRemoteImage hfits
  | key event => exact hs.inputAndReconcile hp hfits

/-- After every step of a run whose steps fit, each image is tied to the element it was attached
to, by labels that are distinct and count on from the remote images. -/
theorem labelled_of_run (hp : p.Lawful) {actions : List ImageAction}
    (h : Run (FitStep p) s actions t) (hs : s.composer.Tied s.ties) (hne : actions ≠ []) :
    t.composer.Labelled t.ties := by
  have hhistory := h.history (I := fun past s => s.composer.Tied s.ties ∧
    (past ≠ [] → s.composer.Labelled s.ties)) (fun hs hstep => by
      have hlabelled := hstep.labelled hp hs.1
      exact ⟨hlabelled.toTied, fun _ => hlabelled⟩) [] ⟨hs, fun hnil => absurd rfl hnil⟩
  exact hhistory.2 hne

/-- A composer without images. -/
def start : TiedComposer := ⟨.new false, []⟩

theorem start_tied : start.composer.Tied start.ties :=
  ⟨TextArea.new_wf.toAligned, rfl, fun _ _ _ himg => absurd himg (by simp [start, ChatComposer.new])⟩

/-- The placeholders of a platform without image files. -/
def charComposerPlatform : ComposerPlatform :=
  { charPlatform with imagePasteEnabled := false, pastedImage := fun _ => none }

/-- The second of two images is deleted, and then a remote image comes before the first. -/
theorem labelled_of_deleted_image : ∃ t, Run (FitStep charComposerPlatform) start
    [.attachImage "a.png", .attachImage "b.png", .key ⟨.backspace, .none⟩,
      .setRemoteImageUrls ["remote.png"]] t ∧ t.composer.Labelled t.ties := by
  have hp : charComposerPlatform.Lawful := charPlatform_lawful
  have hstart : start.composer.Numbered := fun i img himg =>
    absurd himg (by simp [start, ChatComposer.new])
  have hfirst : start.Fits charComposerPlatform (.attachImage "a.png") :=
    ⟨hstart, by decide +kernel, by decide +kernel⟩
  have hone := FitStep.labelled hp ⟨rfl, hfirst⟩ start_tied
  have hsecond : (start.next charComposerPlatform (.attachImage "a.png")).Fits
      charComposerPlatform (.attachImage "b.png") :=
    ⟨hone.numbered, by decide +kernel, by decide +kernel⟩
  have htwo := FitStep.labelled hp ⟨rfl, hsecond⟩ hone.toTied
  have hkey : ((start.next charComposerPlatform (.attachImage "a.png")).next charComposerPlatform
      (.attachImage "b.png")).Fits charComposerPlatform (.key ⟨.backspace, .none⟩) :=
    .inl htwo.numbered
  have hthree := FitStep.labelled hp ⟨rfl, hkey⟩ htwo.toTied
  have hremote : (((start.next charComposerPlatform (.attachImage "a.png")).next
      charComposerPlatform (.attachImage "b.png")).next charComposerPlatform
      (.key ⟨.backspace, .none⟩)).Fits charComposerPlatform
      (.setRemoteImageUrls ["remote.png"]) :=
    ChatComposer.relabelFits_of_far hthree.numbered (.inr (by decide +kernel))
      (by decide +kernel)
  have hrun : Run (FitStep charComposerPlatform) start
      [.attachImage "a.png", .attachImage "b.png", .key ⟨.backspace, .none⟩,
        .setRemoteImageUrls ["remote.png"]] _ :=
    .cons ⟨rfl, hfirst⟩ (.cons ⟨rfl, hsecond⟩ (.cons ⟨rfl, hkey⟩ (.cons ⟨rfl, hremote⟩ (.nil _))))
  exact ⟨_, hrun, labelled_of_run hp hrun start_tied (List.cons_ne_nil _ _)⟩

/-- Two images change places when a remote image comes before them. -/
theorem not_labelled_of_remote_image : charComposerPlatform.Lawful ∧
    start.composer.Tied start.ties ∧ ∃ t, Run (Step charComposerPlatform) start
      [.attachImage "a.png", .attachImage "b.png",
        .setRemoteImageUrls ["remote.png"]] t ∧ ¬ t.composer.Labelled t.ties := by
  refine ⟨charPlatform_lawful, start_tied, _, .cons rfl (.cons rfl (.cons rfl (.nil _))),
    fun h => ?_⟩
  -- the element that the first image was attached to bears the label of the second
  have hmem := (h.tied.tied 0 ⟨localImageLabelText 2, "a.png"⟩ ⟨"a.png", 1⟩ (by decide +kernel)
    (by decide +kernel)).mem
  revert hmem
  decide +kernel

end TiedComposer

end SheriMl.Tui
