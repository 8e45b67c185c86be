import Mathlib.Data.List.Flatten
import Mathlib.Data.List.Nodup
import Mathlib.Data.List.Pairwise
import Mathlib.Data.List.Perm.Basic
import Mathlib.Data.Prod.Lex
import SheriMl.Lib.Ranking

/-!
# Preorder walks of trees

The nodes of a forest, cut at a depth, in a row. They are a walk if each root is followed by what
is below it, walked, and the roots are in the order of their names (`IsWalk`). That is a matter of
which of two nodes comes first (`isWalk_iff`). So a row that is sorted by some key is a walk,
whatever comes first of equal keys, just if the keys themselves nest (`sorted_isWalk_iff`).
-/

namespace SheriMl.TreeWalk

open List

open Ranking

variable {ι κ ν : Type*} [LinearOrder κ] [LinearOrder ν] {kids : ι → List ι}
  {key : ι → κ} {name : ι → ν} {R R' : ι → ι → Prop} {n : Nat} {l out block N : List ι} {i j x y : ι}

/-- The nodes of a forest cut at a depth. -/
def nodes (kids : ι → List ι) : Nat → List ι → List ι
  | 0, _ => []
  | n + 1, l => l.flatMap fun i => i :: nodes kids n (kids i)

/-- The roots in the order of their names, each with a walk of what is below it. -/
def IsWalk (kids : ι → List ι) (name : ι → ν) : Nat → List ι → List ι → Prop
  | 0, _, out => out = []
  | n + 1, l, out => ∃ blocks : List (ι × List ι), (blocks.map Prod.fst).Perm l ∧
      blocks.Pairwise (fun b b' => name b.1 ≤ name b'.1) ∧
      (∀ b ∈ blocks, IsWalk kids name n (kids b.1) b.2) ∧ out = blocks.flatMap fun b => b.1 :: b.2

/-- By a relation, a node comes before what is below it; of two roots the one with the first name
comes first, and none comes between another one and what is below that. -/
def Nests (kids : ι → List ι) (name : ι → ν) (R : ι → ι → Prop) : Nat → List ι → Prop
  | 0, _ => True
  | n + 1, l =>
    (∀ i ∈ l, ∀ x ∈ nodes kids n (kids i), R i x) ∧
      (∀ i ∈ l, ∀ j ∈ l, i ≠ j → (name i < name j → R i j) ∧
        ∀ x ∈ nodes kids n (kids i), R j i ∨ R x j) ∧
      ∀ i ∈ l, Nests kids name R n (kids i)

@[simp] theorem nodes_nil (kids : ι → List ι) (n : Nat) : nodes kids n [] = [] := by
  cases n <;> rfl

theorem nodes_succ_perm (kids : ι → List ι) (n : Nat) (l : List ι) :
    (nodes kids (n + 1) l).Perm (l ++ l.flatMap fun i => nodes kids n (kids i)) := by
  have happend := flatMap_append_perm l (fun i => [i]) fun i => nodes kids n (kids i)
  rw [flatMap_singleton'] at happend
  exact happend.symm

theorem mem_nodes_succ : j ∈ nodes kids (n + 1) l ↔ ∃ i ∈ l, j = i ∨ j ∈ nodes kids n (kids i) := by
  rw [nodes, mem_flatMap]
  simp only [mem_cons]

theorem mem_nodes_of_mem (hi : i ∈ l) : i ∈ nodes kids (n + 1) l :=
  mem_nodes_succ.2 ⟨i, hi, .inl rfl⟩

theorem mem_nodes_of_mem_kids (hi : i ∈ l) (hj : j ∈ nodes kids n (kids i)) :
    j ∈ nodes kids (n + 1) l :=
  mem_nodes_succ.2 ⟨i, hi, .inr hj⟩

@[simp] theorem nests_nil (kids : ι → List ι) (name : ι → ν) (R : ι → ι → Prop) (n : Nat) :
    Nests kids name R n [] := by
  cases n with
  | zero => trivial
  | succ n =>
    exact ⟨fun i hi => (by cases hi), fun i hi => (by cases hi), fun i hi => (by cases hi)⟩

instance decidableNests [DecidableEq ι] [DecidableRel R] :
    ∀ n l, Decidable (Nests kids name R n l)
  | 0, _ => isTrue trivial
  | n + 1, _ =>
    have : ∀ l, Decidable (Nests kids name R n l) := fun l => decidableNests n l
    inferInstanceAs (Decidable (_ ∧ _ ∧ _))

theorem Nests.mono (h : Nests kids name R n l)
    (hR : ∀ i ∈ nodes kids n l, ∀ j ∈ nodes kids n l, R i j → R' i j) :
    Nests kids name R' n l := by
  induction n generalizing l with
  | zero => trivial
  | succ n ih =>
    obtain ⟨hbelow, hbeside, hkids⟩ := h
    refine ⟨fun i hi x hx => ?_, fun i hi j hj hne => ⟨fun hname => ?_, fun x hx => ?_⟩,
      fun i hi => ?_⟩
    · exact hR i (mem_nodes_of_mem hi) x (mem_nodes_of_mem_kids hi hx) (hbelow i hi x hx)
    · exact hR i (mem_nodes_of_mem hi) j (mem_nodes_of_mem hj) ((hbeside i hi j hj hne).1 hname)
    · exact ((hbeside i hi j hj hne).2 x hx).imp
        (hR j (mem_nodes_of_mem hj) i (mem_nodes_of_mem hi))
        (hR x (mem_nodes_of_mem_kids hi hx) j (mem_nodes_of_mem hj))
    · exact ih (hkids i hi) fun j hj k hk =>
        hR j (mem_nodes_of_mem_kids hi hj) k (mem_nodes_of_mem_kids hi hk)

theorem IsWalk.perm (h : IsWalk kids name n l out) : out.Perm (nodes kids n l) := by
  induction n generalizing l out with
  | zero => exact List.Perm.of_eq h
  | succ n ih =>
    obtain ⟨blocks, hroots, -, hblocks, rfl⟩ := h
    have hmap : (blocks.map Prod.fst).flatMap (fun i => i :: nodes kids n (kids i)) =
        blocks.flatMap fun b => b.1 :: nodes kids n (kids b.1) := flatMap_map ..
    refine List.Perm.trans ?_ (hroots.flatMap_right _)
    rw [hmap]
    exact List.Perm.flatMap_left blocks fun b hb => (ih (hblocks b hb)).cons b.1

/-- Of two entries, one comes before the other. -/
theorem rel_or_rel_of_pairwise {β : Type*} {S : β → β → Prop} {bs : List β} {b b' : β}
    (h : bs.Pairwise S) (hb : b ∈ bs) (hb' : b' ∈ bs) (hne : b ≠ b') : S b b' ∨ S b' b := by
  have hsymm : Std.Symm fun b b' => S b b' ∨ S b' b := ⟨fun _ _ h => h.symm⟩
  have hboth : bs.Pairwise fun b b' => S b b' ∨ S b' b := h.imp Or.inl
  exact hboth.forall hb hb' hne

theorem nodup_of_nodup_nodes (h : (nodes kids (n + 1) l).Nodup) : l.Nodup := by
  have hsingle : l.flatMap (fun i => [i]) = l := flatMap_singleton' l
  rw [← hsingle]
  exact h.sublist (List.Sublist.flatMap_right l fun i _ => singleton_sublist.2 (by simp))

theorem nodup_nodes_kids (h : (nodes kids (n + 1) l).Nodup) (hi : i ∈ l) :
    (nodes kids n (kids i)).Nodup :=
  (nodup_cons.1 ((nodup_flatMap.1 h).1 i hi)).2

/-! ## Levels -/

/-- A node of the cut forest and one just below it. -/
def IsChild (kids : ι → List ι) : Nat → List ι → ι → ι → Prop
  | 0, _, _, _ => False
  | n + 1, l, i, x =>
    (i ∈ l ∧ x ∈ kids i ∧ x ∈ nodes kids n (kids i)) ∨ ∃ r ∈ l, IsChild kids n (kids r) i x

theorem IsChild.mem (h : IsChild kids n l i x) : i ∈ nodes kids n l ∧ x ∈ nodes kids n l := by
  induction n generalizing l with
  | zero => cases h
  | succ n ih =>
    rcases h with ⟨hi, -, hx⟩ | ⟨r, hr, hchild⟩
    · exact ⟨mem_nodes_of_mem hi, mem_nodes_of_mem_kids hi hx⟩
    · exact ⟨mem_nodes_of_mem_kids hr (ih hchild).1, mem_nodes_of_mem_kids hr (ih hchild).2⟩

theorem Nests.rel_of_isChild (h : Nests kids name R n l) (hchild : IsChild kids n l i x) :
    R i x := by
  induction n generalizing l with
  | zero => cases hchild
  | succ n ih =>
    obtain ⟨hbelow, -, hkids⟩ := h
    rcases hchild with ⟨hi, -, hx⟩ | ⟨r, hr, hchild⟩
    · exact hbelow i hi x hx
    · exact ih (hkids r hr) hchild

section Levels

variable {level : ι → Nat} (hlevel : ∀ i, ∀ x ∈ kids i, level x = level i + 1)
include hlevel

theorem level_lt_of_mem_nodes (hx : x ∈ nodes kids n (kids i)) : level i < level x := by
  induction n generalizing i with
  | zero => cases hx
  | succ n ih =>
    obtain ⟨j, hj, rfl | hx⟩ := mem_nodes_succ.1 hx
    · exact Nat.lt_of_lt_of_eq (Nat.lt_succ_self _) (hlevel i x hj).symm
    · have hstep := hlevel i j hj
      have hbelow := ih hx
      omega

theorem IsChild.level_lt (h : IsChild kids n l i x) : level i < level x := by
  induction n generalizing l with
  | zero => cases h
  | succ n ih =>
    rcases h with ⟨-, hx, -⟩ | ⟨r, -, hchild⟩
    · exact Nat.lt_of_lt_of_eq (Nat.lt_succ_self _) (hlevel i x hx).symm
    · exact ih hchild

end Levels

/-! ## Which of two nodes comes first -/

variable [DecidableEq ι]

/-- In a row, one comes before the other. -/
def Before (out : List ι) (i j : ι) : Prop := out.idxOf i < out.idxOf j

instance decidableBefore : Decidable (Before out i j) := Nat.decLt _ _

theorem pairwise_before (h : out.Nodup) : out.Pairwise (Before out) := by
  rw [pairwise_iff_getElem]
  intro a b ha hb hab
  rw [Before, h.idxOf_getElem, h.idxOf_getElem]
  exact hab

/-- What a row is sorted by does not go against it. -/
theorem before_of_pairwise (h : out.Pairwise R) (hi : i ∈ out) (hj : j ∈ out) (hne : i ≠ j)
    (hnot : ¬R j i) : Before out i j := by
  rcases Nat.lt_trichotomy (out.idxOf i) (out.idxOf j) with hlt | heq | hgt
  · exact hlt
  · exact absurd ((idxOf_inj hi).1 heq) hne
  · have hjlt := idxOf_lt_length_of_mem hj
    have hilt := idxOf_lt_length_of_mem hi
    have hR := pairwise_iff_getElem.1 h _ _ hjlt hilt hgt
    rw [getElem_idxOf, getElem_idxOf] at hR
    exact absurd hR hnot

theorem Before.asymm (h : Before out i j) : ¬Before out j i := Nat.lt_asymm h

/-- A part of a row keeps the order. -/
theorem before_iff_of_sublist (h : out.Nodup) (hsub : block.Sublist out) (hi : i ∈ block)
    (hj : j ∈ block) : Before block i j ↔ Before out i j := by
  have hpairwise := (pairwise_before h).sublist hsub
  by_cases hne : i = j
  · subst hne
    exact iff_of_false (Nat.lt_irrefl _) (Nat.lt_irrefl _)
  constructor
  · intro hbefore
    by_contra hnot
    exact absurd (before_of_pairwise hpairwise hj hi (Ne.symm hne) hnot) hbefore.asymm
  · intro hbefore
    exact before_of_pairwise hpairwise hi hj hne hbefore.asymm

theorem Before.trans {k : ι} (hij : Before out i j) (hjk : Before out j k) : Before out i k :=
  Nat.lt_trans hij hjk

theorem filter_perm (hnodup : out.Nodup) (hblock : block.Nodup) (hsub : ∀ x ∈ block, x ∈ out) :
    (out.filter (· ∈ block)).Perm block := by
  refine (perm_ext_iff_of_nodup (hnodup.filter _) hblock).2 fun x => ?_
  rw [mem_filter, decide_eq_true_eq]
  exact ⟨fun h => h.2, fun h => ⟨hsub x h, h⟩⟩

/-- A row in which the nodes nest is a walk: its roots in their order, each with the part of the
row that is below it. -/
theorem isWalk_of_nests (hnodup : out.Nodup) (hperm : out.Perm (nodes kids n l))
    (h : Nests kids name (Before out) n l) : IsWalk kids name n l out := by
  induction n generalizing l out with
  | zero => exact List.Perm.eq_nil hperm
  | succ n ih =>
    obtain ⟨hbelow, hbeside, hkids⟩ := h
    have hnodes : (nodes kids (n + 1) l).Nodup := hperm.nodup_iff.1 hnodup
    have hroots : (out.filter (· ∈ l)).Perm l := filter_perm hnodup (nodup_of_nodup_nodes hnodes)
      fun i hi => hperm.mem_iff.2 (mem_nodes_of_mem hi)
    have hblock : ∀ i ∈ l, (out.filter (· ∈ nodes kids n (kids i))).Perm (nodes kids n (kids i)) :=
      fun i hi => filter_perm hnodup (nodup_nodes_kids hnodes hi)
        fun j hj => hperm.mem_iff.2 (mem_nodes_of_mem_kids hi hj)
    have hordered := (pairwise_before hnodup).filter (· ∈ l)
    refine ⟨(out.filter (· ∈ l)).map fun i => (i, out.filter (· ∈ nodes kids n (kids i))),
      ?_, ?_, ?_, ?_⟩
    · rw [map_map]
      exact (map_id _).symm ▸ hroots
    · rw [pairwise_map]
      refine hordered.imp_of_mem fun {i j} hi hj hij => ?_
      by_contra hname
      have hne : j ≠ i := fun heq => (heq ▸ hij).asymm (heq ▸ hij)
      exact hij.asymm ((hbeside j (hroots.mem_iff.1 hj) i (hroots.mem_iff.1 hi) hne).1
        (not_le.1 hname))
    · rintro b hb
      obtain ⟨i, hi, rfl⟩ := mem_map.1 hb
      have hil := hroots.mem_iff.1 hi
      refine ih (hnodup.filter _) (hblock i hil) ((hkids i hil).mono fun j hj k hk hjk => ?_)
      exact (before_iff_of_sublist hnodup filter_sublist ((hblock i hil).mem_iff.2 hj)
        ((hblock i hil).mem_iff.2 hk)).2 hjk
    · rw [flatMap_map]
      refine List.Perm.eq_of_pairwise (fun i j _ _ hij hji => absurd hji hij.asymm)
        (pairwise_before hnodup) ?_ ?_
      · rw [pairwise_flatMap]
        refine ⟨fun i hi => pairwise_cons.2 ⟨fun x hx => ?_, ?_⟩,
          hordered.imp_of_mem fun {i j} hi hj hij x hx y hy => ?_⟩
        · have hil := hroots.mem_iff.1 hi
          exact hbelow i hil x ((hblock i hil).mem_iff.1 hx)
        · exact (pairwise_before hnodup).filter _
        · have hil := hroots.mem_iff.1 hi
          have hjl := hroots.mem_iff.1 hj
          have hne : i ≠ j := fun heq => (heq ▸ hij).asymm (heq ▸ hij)
          have hxj : Before out x j := by
            rcases mem_cons.1 hx with rfl | hx
            · exact hij
            · exact ((hbeside i hil j hjl hne).2 x ((hblock i hil).mem_iff.1 hx)).resolve_left
                hij.asymm
          rcases mem_cons.1 hy with rfl | hy
          · exact hxj
          · exact hxj.trans (hbelow j hjl y ((hblock j hjl).mem_iff.1 hy))
      · refine hperm.trans ((hroots.symm.flatMap_right _).trans ?_)
        exact List.Perm.flatMap_left _ fun i hi => ((hblock i (hroots.mem_iff.1 hi)).symm).cons i

theorem nests_of_isWalk (hnodup : out.Nodup) (h : IsWalk kids name n l out) :
    Nests kids name (Before out) n l := by
  induction n generalizing l out with
  | zero => trivial
  | succ n ih =>
    obtain ⟨blocks, hroots, hnames, hblocks, hout⟩ := h
    have hbefore := pairwise_before hnodup
    rw [hout, pairwise_flatMap, ← hout] at hbefore
    obtain ⟨hwithin, hacross⟩ := hbefore
    have hpart : ∀ b ∈ blocks, (b.1 :: b.2).Sublist out := by
      intro b hb
      rw [hout, flatMap_def]
      exact sublist_flatten_of_mem (mem_map_of_mem (f := fun b => b.1 :: b.2) hb)
    have hblock : ∀ i ∈ l, ∃ b ∈ blocks, b.1 = i := fun i hi =>
      mem_map.1 (hroots.mem_iff.2 hi)
    refine ⟨fun i hi x hx => ?_, fun i hi j hj hne => ?_, fun i hi => ?_⟩
    · obtain ⟨b, hb, rfl⟩ := hblock i hi
      exact (pairwise_cons.1 (hwithin b hb)).1 x ((hblocks b hb).perm.mem_iff.2 hx)
    · obtain ⟨b, hb, rfl⟩ := hblock i hi
      obtain ⟨b', hb', rfl⟩ := hblock j hj
      -- One of the two blocks comes first, with all that is in it.
      have hblocks' : b ≠ b' := fun heq => hne (congrArg Prod.fst heq)
      rcases rel_or_rel_of_pairwise (hnames.and hacross) hb hb' hblocks' with
        ⟨-, hfirst⟩ | ⟨hle, hfirst⟩
      · have hroot := hfirst b.1 mem_cons_self b'.1 mem_cons_self
        refine ⟨fun _ => hroot, fun x hx => .inr ?_⟩
        exact hfirst x (mem_cons_of_mem _ ((hblocks b hb).perm.mem_iff.2 hx)) b'.1
          mem_cons_self
      · have hroot := hfirst b'.1 mem_cons_self b.1 mem_cons_self
        exact ⟨fun hlt => absurd hle (not_le.2 hlt), fun x _ => .inl hroot⟩
    · obtain ⟨b, hb, rfl⟩ := hblock i hi
      have hsub : b.2.Sublist out := (sublist_cons_self b.1 b.2).trans (hpart b hb)
      refine (ih (hnodup.sublist hsub) (hblocks b hb)).mono fun j hj k hk hjk => ?_
      exact (before_iff_of_sublist hnodup hsub ((hblocks b hb).perm.mem_iff.2 hj)
        ((hblocks b hb).perm.mem_iff.2 hk)).1 hjk

/-- A walk is a row in which the nodes nest. -/
theorem isWalk_iff (hnodup : out.Nodup) (hperm : out.Perm (nodes kids n l)) :
    IsWalk kids name n l out ↔ Nests kids name (Before out) n l :=
  ⟨nests_of_isWalk hnodup, isWalk_of_nests hnodup hperm⟩

/-! ## Indentation -/

/-- The last node before `x` that is less deep is `i`. -/
structure ShownUnder (level : ι → Nat) (out : List ι) (i x : ι) : Prop where
  before : Before out i x
  less : level i < level x
  last : ∀ y ∈ out, Before out i y → Before out y x → level x ≤ level y

section Indentation

variable {level : ι → Nat} (hlevel : ∀ i, ∀ x ∈ kids i, level x = level i + 1)
include hlevel

/-- Where the nodes nest, what comes between a node and one just below it is below it too. -/
theorem level_le_of_nests (h : Nests kids name (Before out) n l) (hchild : IsChild kids n l i x)
    (hy : y ∈ nodes kids n l) (hiy : Before out i y) (hyx : Before out y x) :
    level x ≤ level y := by
  induction n generalizing l with
  | zero => cases hchild
  | succ n ih =>
    obtain ⟨hbelow, hbeside, hkids⟩ := h
    obtain ⟨r, hr, hxr, hir⟩ : ∃ r ∈ l, x ∈ nodes kids n (kids r) ∧
        ((i = r ∧ x ∈ kids r) ∨ IsChild kids n (kids r) i x) := by
      rcases hchild with ⟨hi, hxi, hx⟩ | ⟨r, hr, hchild⟩
      · exact ⟨i, hi, hx, .inl ⟨rfl, hxi⟩⟩
      · exact ⟨r, hr, hchild.mem.2, .inr hchild⟩
    have hry : Before out r y := by
      rcases hir with ⟨rfl, -⟩ | hchild
      · exact hiy
      · exact (hbelow r hr i hchild.mem.1).trans hiy
    obtain ⟨r', hr', hyr'⟩ := mem_nodes_succ.1 hy
    by_cases hsame : r' = r
    · rw [hsame] at hyr'
      rcases hyr' with rfl | hyr
      · exact absurd hry (Nat.lt_irrefl _)
      · rcases hir with ⟨rfl, hxi⟩ | hchild
        · rw [hlevel i x hxi]
          exact level_lt_of_mem_nodes hlevel hyr
        · exact ih (hkids r hr) hchild hyr
    · exfalso
      have hr'y : y = r' ∨ Before out r' y := hyr'.imp id fun hy => hbelow r' hr' y hy
      rcases (hbeside r hr r' hr' (Ne.symm hsame)).2 x hxr with hfirst | hlater
      · rcases hyr' with rfl | hy
        · exact hry.asymm hfirst
        · exact ((hbeside r' hr' r hr hsame).2 y hy).elim hfirst.asymm hry.asymm
      · rcases hr'y with rfl | hr'y
        · exact hyx.asymm hlater
        · exact hyx.asymm (hlater.trans hr'y)

/-- In a walk, the parent of a node is the last one before it that is less deep. -/
theorem shownUnder_of_isWalk (hnodup : out.Nodup) (h : IsWalk kids name n l out)
    (hchild : IsChild kids n l i x) : ShownUnder level out i x := by
  have hnests := nests_of_isWalk hnodup h
  refine ⟨hnests.rel_of_isChild hchild, IsChild.level_lt hlevel hchild, fun y hy hiy hyx => ?_⟩
  exact level_le_of_nests hlevel hnests hchild (h.perm.mem_iff.1 hy) hiy hyx

end Indentation

/-! ## Sorting by a key -/

/-- A row sorted by a key, in which the first of two nodes with equal keys is the one asked for. -/
theorem exists_sorted_before (key : ι → κ) (hi : i ∈ N) (hj : j ∈ N) (hne : i ≠ j)
    (hle : key i ≤ key j) :
    ∃ out : List ι, out.Perm N ∧ out.Pairwise (fun x y => key x ≤ key y) ∧ Before out i j := by
  have hsorted := pairwise_ascending (fun x => toLex (key x, if x = i then 0 else 1)) N
  refine ⟨_, mergeSort_perm N _, hsorted.imp fun h => ?_, ?_⟩
  · exact (Prod.Lex.le_iff.1 h).elim le_of_lt fun h => le_of_eq h.1
  · refine before_of_pairwise hsorted (mem_mergeSort.2 hi) (mem_mergeSort.2 hj) hne ?_
    intro hji
    rw [Prod.Lex.le_iff, if_pos rfl, if_neg (Ne.symm hne)] at hji
    rcases hji with hlt | ⟨-, hlast⟩
    · exact absurd hle (not_le.2 hlt)
    · exact Nat.not_succ_le_zero 0 hlast

/-- A smaller key comes first. -/
theorem before_of_key_lt (hsorted : out.Pairwise fun x y => key x ≤ key y) (hi : i ∈ out)
    (hj : j ∈ out) (hlt : key i < key j) : Before out i j :=
  before_of_pairwise hsorted hi hj (fun heq => lt_irrefl _ (heq ▸ hlt)) (not_le.2 hlt)

theorem nests_key (hnodup : (nodes kids n l).Nodup)
    (hsub : ∀ x ∈ nodes kids n l, x ∈ N)
    (h : ∀ out : List ι, out.Perm N → out.Pairwise (fun x y => key x ≤ key y) →
      Nests kids name (Before out) n l) :
    Nests kids name (fun i j => key i < key j) n l := by
  induction n generalizing l with
  | zero => trivial
  | succ n ih =>
    -- Else a row would have the two the other way around.
    have hkey : ∀ i ∈ N, ∀ j ∈ N, i ≠ j →
        (∀ out : List ι, out.Perm N → out.Pairwise (fun x y => key x ≤ key y) → Before out i j) →
        key i < key j := by
      intro i hi j hj hne hbefore
      by_contra hnot
      obtain ⟨out, hperm, hsorted, hji⟩ :=
        exists_sorted_before key hj hi (Ne.symm hne) (not_lt.1 hnot)
      exact hji.asymm (hbefore out hperm hsorted)
    have hroot : ∀ i ∈ l, i ∈ N := fun i hi => hsub i (mem_nodes_of_mem hi)
    have hbelowN : ∀ i ∈ l, ∀ x ∈ nodes kids n (kids i), x ∈ N := fun i hi x hx =>
      hsub x (mem_nodes_of_mem_kids hi hx)
    obtain ⟨hblocks, hdisjoint⟩ := nodup_flatMap.1 hnodup
    have happart : ∀ i ∈ l, ∀ x ∈ nodes kids n (kids i), i ≠ x := by
      rintro i hi x hx rfl
      exact (nodup_cons.1 (hblocks i hi)).1 hx
    have hbesides : ∀ i ∈ l, ∀ j ∈ l, i ≠ j → ∀ x ∈ nodes kids n (kids i), j ≠ x := by
      rintro i hi j hj hne x hx rfl
      have hj' : j ∈ i :: nodes kids n (kids i) := mem_cons_of_mem i hx
      rcases rel_or_rel_of_pairwise hdisjoint hi hj hne with hdisj | hdisj
      · exact hdisj hj' mem_cons_self
      · exact hdisj mem_cons_self hj'
    have hbelow : ∀ i ∈ l, ∀ x ∈ nodes kids n (kids i), key i < key x := fun i hi x hx =>
      hkey i (hroot i hi) x (hbelowN i hi x hx) (happart i hi x hx)
        fun out hperm hsorted => (h out hperm hsorted).1 i hi x hx
    refine ⟨hbelow, fun i hi j hj hne => ⟨fun hname => ?_, fun x hx => ?_⟩, fun i hi => ?_⟩
    · exact hkey i (hroot i hi) j (hroot j hj) hne
        fun out hperm hsorted => ((h out hperm hsorted).2.1 i hi j hj hne).1 hname
    · by_contra hnot
      obtain ⟨hji, hxj⟩ := not_or.1 hnot
      have hij := not_lt.1 hji
      have hjx := not_lt.1 hxj
      have hiN := hroot i hi
      have hjN := hroot j hj
      have hxN := hbelowN i hi x hx
      rcases lt_or_eq_of_le hij with hlt | heq
      · obtain ⟨out, hperm, hsorted, hbefore⟩ :=
          exists_sorted_before key hjN hxN (hbesides i hi j hj hne x hx) hjx
        rcases ((h out hperm hsorted).2.1 i hi j hj hne).2 x hx with hbad | hbad
        · exact hbad.asymm
            (before_of_key_lt hsorted (hperm.mem_iff.2 hiN) (hperm.mem_iff.2 hjN) hlt)
        · exact hbad.asymm hbefore
      · obtain ⟨out, hperm, hsorted, hbefore⟩ := exists_sorted_before key hiN hjN hne hij
        rcases ((h out hperm hsorted).2.1 i hi j hj hne).2 x hx with hbad | hbad
        · exact hbad.asymm hbefore
        · exact hbad.asymm (before_of_key_lt hsorted (hperm.mem_iff.2 hjN) (hperm.mem_iff.2 hxN)
            (heq ▸ hbelow i hi x hx))
    · exact ih (nodup_nodes_kids hnodup hi) (hbelowN i hi)
        fun out hperm hsorted => (h out hperm hsorted).2.2 i hi

/-- Each row sorted by a key is a walk, just if the nodes nest by the key. -/
theorem sorted_isWalk_iff (hnodup : (nodes kids n l).Nodup) :
    (∀ out : List ι, out.Perm (nodes kids n l) → out.Pairwise (fun x y => key x ≤ key y) →
      IsWalk kids name n l out) ↔ Nests kids name (fun i j => key i < key j) n l := by
  constructor
  · intro h
    exact nests_key hnodup (fun x hx => hx) fun out hperm hsorted =>
      (isWalk_iff (hperm.nodup_iff.2 hnodup) hperm).1 (h out hperm hsorted)
  · intro h out hperm hsorted
    refine (isWalk_iff (hperm.nodup_iff.2 hnodup) hperm).2 (h.mono fun i hi j hj hlt => ?_)
    exact before_of_key_lt hsorted (hperm.mem_iff.2 hi) (hperm.mem_iff.2 hj) hlt

end SheriMl.TreeWalk
