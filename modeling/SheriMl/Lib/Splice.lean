import Mathlib.Data.List.Sort

/-!
# Splicing edits into a list

An edit replaces a window of a list. `splice` makes all edits at once, position
by position: the new elements of the edits that start at a position come before
it, and the element there stays unless a window covers it. `applyDesc` makes
them one by one, the last first, as code does that keeps indices valid that way.

Over a chain of windows the two agree (`applyDesc_eq_splice`). Where a window of
the last element precedes insertions at its start, they agree only if what is
inserted repeats that element (`applyDesc_eq_splice_iff_of_last`).
-/

namespace Splice

open List

universe u

variable {α : Type u}

/-- Replace the `len` elements from `start` on. -/
structure Edit (α : Type u) where
  start : Nat
  len : Nat
  new : List α
  deriving DecidableEq

namespace Edit

def stop (e : Edit α) : Nat := e.start + e.len

/-- In an order by `start` that keeps ties, `a` before `b`, their windows are apart. -/
def Compatible (a b : Edit α) : Prop :=
  a.stop ≤ b.start ∨ b.start < a.start ∧ b.stop ≤ a.start

/-- Neither starts strictly inside the other's window, and no element is in both windows. -/
structure Disjoint (a b : Edit α) : Prop where
  start_outside : ¬ (a.start < b.start ∧ b.start < a.stop)
  outside_start : ¬ (b.start < a.start ∧ a.start < b.stop)
  none_shared : a.len = 0 ∨ b.len = 0 ∨ a.stop ≤ b.start ∨ b.stop ≤ a.start

theorem start_le_stop (e : Edit α) : e.start ≤ e.stop := Nat.le_add_right _ _

theorem Compatible.disjoint {a b : Edit α} (h : a.Compatible b) : a.Disjoint b := by
  have ha := a.start_le_stop
  have hb := b.start_le_stop
  rcases h with h | ⟨h, h'⟩
  · exact ⟨by omega, by omega, by omega⟩
  · exact ⟨by omega, by omega, by omega⟩

theorem Disjoint.symm {a b : Edit α} (h : a.Disjoint b) : b.Disjoint a := by
  refine ⟨h.outside_start, h.start_outside, ?_⟩
  rcases h.none_shared with h | h | h | h
  · exact .inr (.inl h)
  · exact .inl h
  · exact .inr (.inr (.inr h))
  · exact .inr (.inr (.inl h))

end Edit

def replace (l : List α) (e : Edit α) : List α := l.take e.start ++ e.new ++ l.drop e.stop

/-- The edits one by one, the last first. -/
def applyDesc (edits : List (Edit α)) (l : List α) : List α :=
  edits.foldr (fun e l => replace l e) l

/-- What is inserted at a position. -/
def newAt (edits : List (Edit α)) (i : Nat) : List α :=
  (edits.filter fun e => e.start = i).flatMap Edit.new

def covered (edits : List (Edit α)) (i : Nat) : Bool :=
  edits.any fun e => e.start ≤ i && i < e.stop

def spliceFrom (edits : List (Edit α)) : Nat → List α → List α
  | i, [] => newAt edits i
  | i, x :: l =>
    newAt edits i ++ (if covered edits i then [] else [x]) ++ spliceFrom edits (i + 1) l

def splice (edits : List (Edit α)) (l : List α) : List α := spliceFrom edits 0 l

/-- The windows follow one another. -/
def Chain (edits : List (Edit α)) : Prop := edits.Pairwise fun a b => a.stop ≤ b.start

variable {edits F G : List (Edit α)} {e : Edit α} {i k : Nat} {l pre post : List α}

/-! ## Positions -/

theorem newAt_append : newAt (F ++ G) i = newAt F i ++ newAt G i := by
  simp [newAt]

theorem newAt_eq_nil (h : ∀ e ∈ edits, e.start ≠ i) : newAt edits i = [] := by
  have hfilter : edits.filter (fun e => e.start = i) = [] := by
    simpa [filter_eq_nil_iff] using h
  rw [newAt, hfilter]
  rfl

theorem covered_append : covered (F ++ G) i = (covered F i || covered G i) := any_append

theorem covered_eq_false (h : ∀ e ∈ edits, i < e.start ∨ e.stop ≤ i) : covered edits i = false := by
  simp only [covered, any_eq_false, Bool.and_eq_true, decide_eq_true_eq]
  intro e he
  have := h e he
  omega

theorem spliceFrom_nil : ∀ (i : Nat) (l : List α), spliceFrom ([] : List (Edit α)) i l = l
  | _, [] => rfl
  | i, x :: l => by
    rw [spliceFrom, spliceFrom_nil (i + 1) l]
    rfl

/-- Edits that are over change nothing any more. -/
theorem spliceFrom_of_over (hF : ∀ e ∈ F, e.start < i ∧ e.stop ≤ i) :
    spliceFrom (F ++ G) i l = spliceFrom G i l := by
  induction l generalizing i with
  | nil =>
    rw [spliceFrom, spliceFrom, newAt_append, newAt_eq_nil fun e he => ?_]
    · rfl
    · exact Nat.ne_of_lt (hF e he).1
  | cons x l ih =>
    have hnew : newAt (F ++ G) i = newAt G i := by
      rw [newAt_append, newAt_eq_nil fun e he => Nat.ne_of_lt (hF e he).1]
      rfl
    have hcov : covered (F ++ G) i = covered G i := by
      rw [covered_append, covered_eq_false fun e he => .inr (hF e he).2]
      rfl
    rw [spliceFrom, spliceFrom, hnew, hcov, ih fun e he => ?_]
    have := hF e he
    omega

/-- Edits before a position and edits from it on act on the two parts of the list. -/
theorem spliceFrom_append (F G : List (Edit α)) (i : Nat) (pre post : List α)
    (hF : ∀ e ∈ F, e.stop ≤ i + pre.length)
    (hG : ∀ e ∈ G, i + pre.length ≤ e.start) :
    spliceFrom (F ++ G) i (pre ++ post) =
      spliceFrom F i pre ++ spliceFrom G (i + pre.length) post := by
  induction pre generalizing i with
  | nil =>
    simp only [length_nil, Nat.add_zero] at hF hG
    cases post with
    | nil => simp only [nil_append, spliceFrom, newAt_append, length_nil, Nat.add_zero]
    | cons y post =>
      have hcov : covered (F ++ G) i = covered G i := by
        rw [covered_append, covered_eq_false fun e he => .inr (hF e he)]
        rfl
      have hrest : spliceFrom (F ++ G) (i + 1) post = spliceFrom G (i + 1) post := by
        refine spliceFrom_of_over fun e he => ?_
        have := hF e he
        have := e.start_le_stop
        omega
      simp only [nil_append, spliceFrom, newAt_append, hcov, hrest, length_nil,
        Nat.add_zero, append_assoc]
  | cons x pre ih =>
    have hlen : i + (x :: pre).length = i + 1 + pre.length := by
      simp only [length_cons]
      omega
    rw [hlen] at hF hG ⊢
    have hnew : newAt (F ++ G) i = newAt F i := by
      have hG' : newAt G i = [] := newAt_eq_nil fun e he => by
        have := hG e he
        omega
      rw [newAt_append, hG', append_nil]
    have hcov : covered (F ++ G) i = covered F i := by
      have hG' : covered G i = false := covered_eq_false fun e he => by
        have := hG e he
        omega
      rw [covered_append, hG', Bool.or_false]
    rw [cons_append, spliceFrom, spliceFrom, hnew, hcov, ih (i + 1) hF hG]
    simp only [append_assoc]

/-! ## One edit -/

theorem spliceFrom_within (hk : e.start < k) (hstop : k ≤ e.stop) (hl : e.stop ≤ k + l.length) :
    spliceFrom [e] k l = l.drop (e.stop - k) := by
  induction l generalizing k with
  | nil =>
    rw [spliceFrom, newAt_eq_nil fun e' he' => ?_, drop_nil]
    rw [mem_singleton.1 he']
    omega
  | cons x l ih =>
    by_cases hover : k = e.stop
    · have hnil : spliceFrom ([e] ++ []) k (x :: l) = spliceFrom [] k (x :: l) :=
        spliceFrom_of_over fun e' he' => by
          rw [mem_singleton.1 he']
          omega
      rw [append_nil, spliceFrom_nil] at hnil
      rw [hnil, hover, Nat.sub_self, drop_zero]
    · have hnew : newAt [e] k = [] := newAt_eq_nil fun e' he' => by
        rw [mem_singleton.1 he']
        omega
      have hcov : covered [e] k = true := by
        simp [covered]
        omega
      simp only [length_cons] at hl
      rw [spliceFrom, hnew, hcov, ih (by omega) (by omega) (by omega)]
      have hdrop : e.stop - k = e.stop - (k + 1) + 1 := by omega
      rw [hdrop, drop_succ_cons]
      rfl

theorem spliceFrom_start (hl : e.len ≤ l.length) :
    spliceFrom [e] e.start l = e.new ++ l.drop e.len := by
  have hnew : newAt [e] e.start = e.new := by simp [newAt]
  cases l with
  | nil => simp [spliceFrom, hnew]
  | cons x l =>
    by_cases hlen : e.len = 0
    · have hcov : covered [e] e.start = false := covered_eq_false fun e' he' => by
        rw [mem_singleton.1 he', Edit.stop]
        omega
      have hrest : spliceFrom [e] (e.start + 1) l = l := by
        have := spliceFrom_of_over (F := [e]) (G := []) (i := e.start + 1) (l := l) fun e' he' => by
          rw [mem_singleton.1 he', Edit.stop]
          omega
        rwa [append_nil, spliceFrom_nil] at this
      rw [spliceFrom, hnew, hcov, hrest, hlen]
      simp
    · have hcov : covered [e] e.start = true := by
        simp [covered, Edit.stop]
        omega
      simp only [length_cons] at hl
      have hstop : e.stop = e.start + e.len := rfl
      rw [spliceFrom, hnew, hcov, spliceFrom_within (by omega) (by omega) (by omega)]
      have hdrop : e.len = e.stop - (e.start + 1) + 1 := by omega
      rw [hdrop, drop_succ_cons]
      simp

theorem splice_single (h : e.stop ≤ l.length) : splice [e] l = replace l e := by
  have hstop : e.stop = e.start + e.len := rfl
  have hsplit := spliceFrom_append [] [e] 0 (l.take e.start) (l.drop e.start) (by simp)
    (by simp)
  have hmin : min e.start l.length = e.start := by omega
  rw [nil_append, take_append_drop, spliceFrom_nil, length_take, hmin,
    Nat.zero_add, spliceFrom_start (by rw [length_drop]; omega), drop_drop] at hsplit
  rw [splice, hsplit, replace, hstop, append_assoc]

/-! ## Chains -/

/-- Edits from a position on leave what is before it. -/
theorem splice_of_ge (h : ∀ e ∈ edits, k ≤ e.start) (hk : k ≤ l.length) :
    splice edits l = l.take k ++ spliceFrom edits k (l.drop k) := by
  have hlen : (l.take k).length = k := by
    rw [length_take]
    omega
  have hsplit := spliceFrom_append [] edits 0 (l.take k) (l.drop k) (by simp)
    (by simpa [hlen] using h)
  rwa [nil_append, take_append_drop, spliceFrom_nil, hlen, Nat.zero_add] at hsplit

/-- Edits up to a position leave what is after it. -/
theorem splice_append_of_le (h : ∀ e ∈ edits, e.stop ≤ pre.length) :
    splice edits (pre ++ post) = splice edits pre ++ post := by
  have hsplit := spliceFrom_append edits [] 0 pre post (by simpa using h) (by simp)
  rwa [append_nil, spliceFrom_nil] at hsplit

/-- The edits of a chain can be made one by one, the last first. -/
theorem applyDesc_eq_splice (hchain : Chain edits) (hbounds : ∀ e ∈ edits, e.stop ≤ l.length) :
    applyDesc edits l = splice edits l := by
  induction edits with
  | nil => exact (spliceFrom_nil 0 l).symm
  | cons e edits ih =>
    obtain ⟨hafter, hchain⟩ := pairwise_cons.1 hchain
    have hstop : e.stop ≤ l.length := hbounds e mem_cons_self
    have hlen : (l.take e.stop).length = e.stop := by
      rw [length_take]
      omega
    have hnone : (l.take e.stop).drop e.stop = [] := drop_eq_nil_of_le (by omega)
    have htail := splice_of_ge hafter hstop
    -- the first edit acts on the part the others leave
    have hfirst : splice (e :: edits) l =
        splice [e] (l.take e.stop) ++ spliceFrom edits e.stop (l.drop e.stop) := by
      have hsplit := spliceFrom_append [e] edits 0 (l.take e.stop) (l.drop e.stop)
        (by simp [hlen]) (by simpa [hlen] using hafter)
      rwa [take_append_drop, hlen, Nat.zero_add] at hsplit
    have hstart := e.start_le_stop
    calc applyDesc (e :: edits) l
        = replace (splice edits l) e := by
          rw [← ih hchain fun e' he' => hbounds e' (mem_cons_of_mem _ he')]
          rfl
      _ = l.take e.start ++ e.new ++ spliceFrom edits e.stop (l.drop e.stop) := by
          rw [htail, replace, take_append_of_le_length (by omega), take_take,
            Nat.min_eq_left hstart, drop_append_of_le_length (by omega), hnone,
            nil_append]
      _ = splice (e :: edits) l := by
          rw [hfirst, splice_single (by omega), replace, take_take, Nat.min_eq_left hstart,
            hnone, append_nil]

/-! ## A window before insertions at its start -/

theorem append_singleton_eq_cons_iff {x a : α} {l : List α} :
    l ++ [x] = a :: l ↔ ∀ y ∈ a :: l, y = x := by
  induction l generalizing a with
  | nil => simp [eq_comm]
  | cons b l ih =>
    rw [cons_append, List.cons.injEq, ih]
    simp only [forall_mem_cons]
    constructor
    · rintro ⟨rfl, hb, hl⟩
      exact ⟨hb, hb, hl⟩
    · rintro ⟨rfl, rfl, hl⟩
      exact ⟨rfl, rfl, hl⟩

/-- Dropping one element after an insertion before it drops what was inserted first. -/
theorem drop_one_append_iff {x : α} {new rest : List α} :
    (new ++ [x] ++ rest).drop 1 = new ++ rest ↔ ∀ y ∈ new, y = x := by
  cases new with
  | nil => simp
  | cons a new =>
    rw [cons_append, cons_append, drop_succ_cons, drop_zero,
      append_cancel_right_eq, append_singleton_eq_cons_iff]

theorem applyDesc_append (F G : List (Edit α)) (l : List α) :
    applyDesc (F ++ G) l = applyDesc F (applyDesc G l) := foldr_append

/-- A window of the last element, before insertions at its start and end: making the edits
one by one, the last first, is right only if the insertions at its start repeat the element. -/
theorem applyDesc_eq_splice_iff_of_last {x : α} {W : Edit α} {R : List (Edit α)}
    (hF : Chain F) (hFstop : ∀ f ∈ F, f.stop ≤ pre.length) (hW : W.start = pre.length)
    (hWlen : W.len = 1) (hR : Chain R)
    (hRstart : ∀ r ∈ R, r.len = 0 ∧ (r.start = pre.length ∨ r.start = pre.length + 1)) :
    applyDesc (F ++ W :: R) (pre ++ [x]) = splice (F ++ W :: R) (pre ++ [x]) ↔
      ∀ y ∈ newAt R pre.length, y = x := by
  have hlast : (pre ++ [x]).length = pre.length + 1 := by simp
  have hRge : ∀ r ∈ R, pre.length ≤ r.start := fun r hr => by
    have := hRstart r hr
    omega
  have hRcov : ∀ i, covered R i = false := fun i => covered_eq_false fun r hr => by
    have := (hRstart r hr).1
    simp only [Edit.stop]
    omega
  have hRapply : applyDesc R (pre ++ [x]) =
      pre ++ (newAt R pre.length ++ [x] ++ newAt R (pre.length + 1)) := by
    rw [applyDesc_eq_splice hR fun r hr => ?_, splice_of_ge hRge (by omega)]
    · simp [spliceFrom, hRcov]
    · have := hRstart r hr
      simp only [Edit.stop, hlast]
      omega
  have hone : applyDesc (F ++ W :: R) (pre ++ [x]) = splice F pre ++ (W.new ++
      (newAt R pre.length ++ [x] ++ newAt R (pre.length + 1)).drop 1) := by
    rw [applyDesc_append]
    have hWR : applyDesc (W :: R) (pre ++ [x]) = pre ++ (W.new ++
        (newAt R pre.length ++ [x] ++ newAt R (pre.length + 1)).drop 1) := by
      show replace (applyDesc R (pre ++ [x])) W = _
      rw [hRapply, replace, Edit.stop, hW, hWlen, take_left, drop_append,
        drop_eq_nil_of_le (by omega), nil_append, Nat.add_sub_cancel_left,
        append_assoc]
    rw [hWR, applyDesc_eq_splice hF fun f hf => ?_, splice_append_of_le hFstop]
    have := hFstop f hf
    simp only [length_append]
    omega
  have hall : splice (F ++ W :: R) (pre ++ [x]) =
      splice F pre ++ (W.new ++ (newAt R pre.length ++ newAt R (pre.length + 1))) := by
    have hsplit := spliceFrom_append F (W :: R) 0 pre [x] (by simpa using hFstop) fun e he => by
      rcases mem_cons.1 he with rfl | he
      · omega
      · have := hRge e he
        omega
    rw [splice, hsplit, splice, Nat.zero_add]
    have hcov : covered (W :: R) pre.length = true := by
      simp [covered, Edit.stop, hW, hWlen]
    have hnew : newAt (W :: R) pre.length = W.new ++ newAt R pre.length := by
      simp [newAt, hW]
    have hnew' : newAt (W :: R) (pre.length + 1) = newAt R (pre.length + 1) := by
      simp [newAt, hW]
    simp [spliceFrom, hcov, hnew, hnew']
  rw [hone, hall, append_cancel_left_eq, append_cancel_left_eq, drop_one_append_iff]

/-! ## Sorting -/

variable {a : Edit α}

/-- Insertion in the order of the starts, before the edits with the same start. -/
def insertByStart (a : Edit α) (edits : List (Edit α)) : List (Edit α) :=
  edits.orderedInsert (fun a b => a.start ≤ b.start) a

def sortByStart (edits : List (Edit α)) : List (Edit α) :=
  edits.insertionSort fun a b => a.start ≤ b.start

theorem insertByStart_cons_of_le {b : Edit α} (h : a.start ≤ b.start) :
    insertByStart a (b :: edits) = a :: b :: edits := by
  rw [insertByStart, orderedInsert_cons, if_pos h]

theorem insertByStart_cons_of_lt {b : Edit α} (h : b.start < a.start) :
    insertByStart a (b :: edits) = b :: insertByStart a edits := by
  rw [insertByStart, orderedInsert_cons, if_neg (by omega)]
  rfl

theorem sortByStart_cons : sortByStart (a :: edits) = insertByStart a (sortByStart edits) := rfl

@[simp] theorem mem_insertByStart {b : Edit α} : b ∈ insertByStart a edits ↔ b = a ∨ b ∈ edits :=
  mem_orderedInsert _

@[simp] theorem mem_sortByStart : e ∈ sortByStart edits ↔ e ∈ edits := mem_insertionSort _

theorem perm_sortByStart (edits : List (Edit α)) : (sortByStart edits).Perm edits :=
  perm_insertionSort _ _

theorem pairwise_sortByStart (edits : List (Edit α)) :
    (sortByStart edits).Pairwise fun a b => a.start ≤ b.start := by
  have htotal : Std.Total fun a b : Edit α => a.start ≤ b.start := ⟨fun _ _ => Nat.le_total _ _⟩
  have htrans : IsTrans (Edit α) fun a b => a.start ≤ b.start := ⟨fun _ _ _ => Nat.le_trans⟩
  exact pairwise_insertionSort _ edits

theorem pairwise_insertByStart {R : Edit α → Edit α → Prop}
    (hsorted : edits.Pairwise fun a b => a.start ≤ b.start) (hl : edits.Pairwise R)
    (ha : ∀ b ∈ edits, (a.start ≤ b.start → R a b) ∧ (b.start < a.start → R b a)) :
    (insertByStart a edits).Pairwise R := by
  induction edits with
  | nil => exact pairwise_singleton _ _
  | cons b edits ih =>
    obtain ⟨hb, hl'⟩ := pairwise_cons.1 hl
    obtain ⟨hbstart, hsorted'⟩ := pairwise_cons.1 hsorted
    rcases Nat.lt_or_ge b.start a.start with hlt | hle
    · rw [insertByStart_cons_of_lt hlt]
      refine pairwise_cons.2 ⟨fun c hc => ?_, ih hsorted' hl' fun c hc =>
        ha c (mem_cons_of_mem _ hc)⟩
      rcases mem_insertByStart.1 hc with rfl | hc
      · exact (ha b mem_cons_self).2 hlt
      · exact hb c hc
    · rw [insertByStart_cons_of_le hle]
      refine pairwise_cons.2 ⟨fun c hc => (ha c hc).1 ?_, hl⟩
      rcases mem_cons.1 hc with rfl | hc
      · exact hle
      · exact Nat.le_trans hle (hbstart c hc)

/-- The sort keeps the order of equal starts and turns the others by their starts. -/
theorem pairwise_sortByStart_of_pairwise {R : Edit α → Edit α → Prop}
    (h : edits.Pairwise fun a b => (a.start ≤ b.start → R a b) ∧ (b.start < a.start → R b a)) :
    (sortByStart edits).Pairwise R := by
  induction h with
  | nil => exact List.Pairwise.nil
  | cons ha _ ih =>
    exact pairwise_insertByStart (pairwise_sortByStart _) ih fun b hb => ha b (mem_sortByStart.1 hb)

/-- Edits whose windows are apart pair by pair form a chain once sorted. -/
theorem chain_sortByStart (h : edits.Pairwise Edit.Compatible) : Chain (sortByStart edits) := by
  refine pairwise_sortByStart_of_pairwise (h.imp fun {a b} hab => ?_)
  have ha := a.start_le_stop
  rcases hab with h | ⟨h, h'⟩
  · exact ⟨fun _ => h, fun hlt => by omega⟩
  · exact ⟨fun hle => by omega, fun _ => h'⟩

theorem insertByStart_append_of_le (hG : ∀ b ∈ G, a.start ≤ b.start) :
    insertByStart a (F ++ G) = insertByStart a F ++ G := by
  induction F with
  | nil =>
    cases G with
    | nil => rfl
    | cons b G => exact insertByStart_cons_of_le (hG b mem_cons_self)
  | cons b F ih =>
    rcases Nat.lt_or_ge b.start a.start with hlt | hle
    · rw [cons_append, insertByStart_cons_of_lt hlt, insertByStart_cons_of_lt hlt, ih]
      rfl
    · rw [cons_append, insertByStart_cons_of_le hle, insertByStart_cons_of_le hle]
      rfl

theorem insertByStart_append_of_lt (hF : ∀ b ∈ F, b.start < a.start) :
    insertByStart a (F ++ G) = F ++ insertByStart a G := by
  induction F with
  | nil => rfl
  | cons b F ih =>
    rw [cons_append, insertByStart_cons_of_lt (hF b mem_cons_self),
      ih fun c hc => hF c (mem_cons_of_mem _ hc)]
    rfl

theorem sortByStart_eq_append (k : Nat) (edits : List (Edit α)) :
    sortByStart edits = sortByStart (edits.filter (·.start < k)) ++
      sortByStart (edits.filter (k ≤ ·.start)) := by
  induction edits with
  | nil => rfl
  | cons e edits ih =>
    rw [sortByStart_cons, ih]
    rcases Nat.lt_or_ge e.start k with hk | hk
    · rw [filter_cons_of_pos (by simpa using hk), filter_cons_of_neg (by simpa using hk),
        sortByStart_cons, insertByStart_append_of_le fun b hb => ?_]
      have hb' := (mem_filter.1 (mem_sortByStart.1 hb)).2
      simp only [decide_eq_true_eq] at hb'
      omega
    · rw [filter_cons_of_neg (by simpa using hk), filter_cons_of_pos (by simpa using hk),
        sortByStart_cons, insertByStart_append_of_lt fun b hb => ?_]
      have hb' := (mem_filter.1 (mem_sortByStart.1 hb)).2
      simp only [decide_eq_true_eq] at hb'
      omega

/-- An edit is sorted after those before it that start no later, and before those after it
that start no earlier. -/
theorem sortByStart_append_cons (F : List (Edit α)) (e : Edit α) (G : List (Edit α)) :
    sortByStart (F ++ e :: G) =
      sortByStart (F.filter (·.start ≤ e.start) ++ G.filter (·.start < e.start)) ++
        e :: sortByStart (F.filter (e.start < ·.start) ++ G.filter (e.start ≤ ·.start)) := by
  induction F with
  | nil =>
    have hlt : ∀ b ∈ sortByStart (G.filter (·.start < e.start)), b.start < e.start := by
      simp
    have hge : ∀ b ∈ sortByStart (G.filter (e.start ≤ ·.start)), e.start ≤ b.start := by
      simp
    rw [nil_append, sortByStart_cons, sortByStart_eq_append e.start G,
      insertByStart_append_of_lt hlt,
      ← nil_append (sortByStart (G.filter (e.start ≤ ·.start))),
      insertByStart_append_of_le hge]
    rfl
  | cons f F ih =>
    rw [cons_append, sortByStart_cons, ih]
    rcases Nat.lt_or_ge e.start f.start with hf | hf
    · have hle : ∀ b ∈ sortByStart (F.filter (·.start ≤ e.start) ++ G.filter (·.start < e.start)),
          b.start < f.start := by
        intro b hb
        simp only [mem_sortByStart, mem_append, mem_filter, decide_eq_true_eq] at hb
        omega
      rw [insertByStart_append_of_lt hle, insertByStart_cons_of_lt hf,
        filter_cons_of_neg (by simpa using hf), filter_cons_of_pos (by simpa using hf)]
      rfl
    · have hge : ∀ b ∈ e :: sortByStart (F.filter (e.start < ·.start) ++
          G.filter (e.start ≤ ·.start)), f.start ≤ b.start := by
        intro b hb
        simp only [mem_cons, mem_sortByStart, mem_append, mem_filter,
          decide_eq_true_eq] at hb
        rcases hb with rfl | hb
        · exact hf
        · omega
      rw [insertByStart_append_of_le hge, filter_cons_of_pos (by simpa using hf),
        filter_cons_of_neg (by simpa using hf)]
      rfl

/-! ## What the edits one by one leave -/

/-- The elements that no window covers. -/
def uncoveredFrom (edits : List (Edit α)) : Nat → List α → List α
  | _, [] => []
  | i, x :: l => (if covered edits i then [] else [x]) ++ uncoveredFrom edits (i + 1) l

def uncovered (edits : List (Edit α)) (l : List α) : List α := uncoveredFrom edits 0 l

/-- How many elements are left of `n`. -/
def lengthAfter (edits : List (Edit α)) (n : Nat) : Nat :=
  edits.foldr (fun e n => e.start + e.new.length + (n - e.stop)) n

/-- The element that stands last in the end: that of the first edit after which nothing is
left, or the list's own where every edit leaves something after it. -/
def lastStanding : List (Edit α) → List α → Option α
  | [], l => l.getLast?
  | e :: edits, l =>
    if e.stop < lengthAfter edits l.length then lastStanding edits l
    else e.new.getLast?.or (l.take e.start).getLast?

theorem applyDesc_cons : applyDesc (e :: edits) l = replace (applyDesc edits l) e := rfl

theorem take_applyDesc (hk : k ≤ l.length) (h : ∀ e ∈ edits, k ≤ e.start) :
    k ≤ (applyDesc edits l).length ∧ (applyDesc edits l).take k = l.take k := by
  induction edits with
  | nil => exact ⟨hk, rfl⟩
  | cons e edits ih =>
    obtain ⟨hlen, htake⟩ := ih fun e' he' => h e' (mem_cons_of_mem _ he')
    have he := h e mem_cons_self
    have htaken : k ≤ ((applyDesc edits l).take e.start).length := by
      rw [length_take]
      omega
    rw [applyDesc_cons, replace, append_assoc]
    refine ⟨?_, ?_⟩
    · rw [length_append]
      omega
    · rw [take_append_of_le_length htaken, take_take, Nat.min_eq_left he, htake]

theorem length_applyDesc (hsorted : edits.Pairwise fun a b => a.start ≤ b.start)
    (hstart : ∀ e ∈ edits, e.start ≤ l.length) :
    (applyDesc edits l).length = lengthAfter edits l.length := by
  induction hsorted with
  | nil => rfl
  | @cons e edits hfirst _ ih =>
    have hlen := (take_applyDesc (hstart e mem_cons_self) hfirst).1
    have htail := ih fun e' he' => hstart e' (mem_cons_of_mem _ he')
    rw [applyDesc_cons, replace, length_append, length_append, length_take,
      length_drop, Nat.min_eq_left hlen, htail]
    rfl

/-- The edits one by one leave the last standing element at the end. -/
theorem getLast?_applyDesc (hsorted : edits.Pairwise fun a b => a.start ≤ b.start)
    (hstart : ∀ e ∈ edits, e.start ≤ l.length) :
    (applyDesc edits l).getLast? = lastStanding edits l := by
  induction hsorted with
  | nil => rfl
  | @cons e edits hfirst hsorted ih =>
    have hstart' : ∀ e' ∈ edits, e'.start ≤ l.length := fun e' he' =>
      hstart e' (mem_cons_of_mem _ he')
    have htake := (take_applyDesc (hstart e mem_cons_self) hfirst).2
    rw [applyDesc_cons, replace, lastStanding, List.getLast?_append, htake,
      ← length_applyDesc hsorted hstart']
    by_cases hlt : e.stop < (applyDesc edits l).length
    · rw [if_pos hlt, List.getLast?_drop, if_neg (by omega), ih hstart']
      cases hlast : lastStanding edits l with
      | some x => rfl
      | none =>
        rw [← ih hstart', List.getLast?_eq_none_iff] at hlast
        rw [hlast] at hlt
        exact absurd hlt (Nat.not_lt_zero _)
    · rw [if_neg hlt, drop_eq_nil_of_le (by omega), List.getLast?_nil, Option.none_or,
        List.getLast?_append]

theorem mem_applyDesc {x : α} (h : x ∈ applyDesc edits l) : x ∈ l ∨ ∃ e ∈ edits, x ∈ e.new := by
  induction edits with
  | nil => exact .inl h
  | cons e edits ih =>
    rw [applyDesc_cons, replace, mem_append, mem_append] at h
    have hrest (hx : x ∈ applyDesc edits l) : x ∈ l ∨ ∃ e' ∈ e :: edits, x ∈ e'.new := by
      rcases ih hx with hx | ⟨e', he', hx⟩
      · exact .inl hx
      · exact .inr ⟨e', mem_cons_of_mem _ he', hx⟩
    rcases h with (h | h) | h
    · exact hrest (mem_of_mem_take h)
    · exact .inr ⟨e, mem_cons_self, h⟩
    · exact hrest (mem_of_mem_drop h)

theorem uncoveredFrom_append :
    uncoveredFrom edits i (pre ++ post) =
      uncoveredFrom edits i pre ++ uncoveredFrom edits (i + pre.length) post := by
  induction pre generalizing i with
  | nil => rfl
  | cons x pre ih =>
    rw [cons_append, uncoveredFrom, uncoveredFrom, ih, append_assoc, length_cons,
      Nat.add_assoc i 1, Nat.add_comm 1]

theorem uncoveredFrom_sublist : (uncoveredFrom edits i l).Sublist l := by
  induction l generalizing i with
  | nil => exact List.Sublist.slnil
  | cons x l ih =>
    rw [uncoveredFrom]
    split
    · exact ih.cons x
    · exact ih.cons_cons x

theorem uncoveredFrom_eq_nil (h : ∀ j, i ≤ j → j < i + l.length → covered edits j = true) :
    uncoveredFrom edits i l = [] := by
  induction l generalizing i with
  | nil => rfl
  | cons x l ih =>
    rw [length_cons] at h
    rw [uncoveredFrom, h i (Nat.le_refl _) (by omega), ih fun j hj hlt => h j (by omega) (by omega)]
    rfl

theorem covered_of_mem {j : Nat} (he : e ∈ edits) (hstart : e.start ≤ j) (hstop : j < e.stop) :
    covered edits j = true :=
  any_eq_true.2 ⟨e, he, by simp [hstart, hstop]⟩

/-- Every window ends before the next begins, or is where the windows cover the rest. -/
def ChainToCover (all edits : List (Edit α)) (n : Nat) : Prop :=
  edits.Pairwise fun a b => a.stop ≤ b.start ∨ ∀ j, a.start ≤ j → j < n → covered all j = true

theorem uncoveredFrom_sublist_drop {all : List (Edit α)} (hall : edits ⊆ all)
    (hsorted : edits.Pairwise fun a b => a.start ≤ b.start)
    (hchain : ChainToCover all edits l.length) (hbounds : ∀ e ∈ edits, e.stop ≤ l.length)
    (hk : k ≤ l.length) (hge : ∀ e ∈ edits, k ≤ e.start) :
    (uncoveredFrom all k (l.drop k)).Sublist ((applyDesc edits l).drop k) := by
  induction edits generalizing k with
  | nil => exact uncoveredFrom_sublist
  | cons e edits ih =>
    obtain ⟨hfirst, hsorted'⟩ := pairwise_cons.1 hsorted
    obtain ⟨hnext, hchain'⟩ := pairwise_cons.1 hchain
    obtain ⟨he, hall'⟩ := cons_subset.1 hall
    have hbounds' : ∀ e' ∈ edits, e'.stop ≤ l.length := fun e' he' =>
      hbounds e' (mem_cons_of_mem _ he')
    have hstop := hbounds e mem_cons_self
    have hke := hge e mem_cons_self
    have hestop : e.stop = e.start + e.len := rfl
    obtain ⟨hlen, htake⟩ := take_applyDesc (by omega : e.start ≤ l.length) hfirst
    have hpre : (l.take e.start).length = e.start := by
      rw [length_take]
      omega
    -- up to the window the edits left the list as it was
    have hresult : (applyDesc (e :: edits) l).drop k =
        (l.take e.start).drop k ++ (e.new ++ (applyDesc edits l).drop e.stop) := by
      rw [applyDesc_cons, replace, htake, append_assoc,
        drop_append_of_le_length (by omega)]
    have hlist : l.drop k = (l.take e.start).drop k ++ l.drop e.start := by
      rw [← drop_append_of_le_length (by omega), take_append_drop]
    have hindex : k + ((l.take e.start).drop k).length = e.start := by
      rw [length_drop]
      omega
    rw [hresult, hlist, uncoveredFrom_append, hindex]
    refine uncoveredFrom_sublist.append (List.Sublist.trans ?_ (sublist_append_right _ _))
    by_cases hcov : ∀ j, e.start ≤ j → j < l.length → covered all j = true
    · rw [uncoveredFrom_eq_nil fun j hj hlt => hcov j hj ?_]
      · exact nil_sublist _
      · rw [length_drop] at hlt
        omega
    · have hafter : ∀ b ∈ edits, e.stop ≤ b.start := fun b hb => (hnext b hb).resolve_right hcov
      have hwindow : l.drop e.start = (l.drop e.start).take e.len ++ l.drop e.stop := by
        rw [hestop, ← drop_drop, take_append_drop]
      have hwlen : ((l.drop e.start).take e.len).length = e.len := by
        rw [length_take, length_drop]
        omega
      rw [hwindow, uncoveredFrom_append, hwlen, uncoveredFrom_eq_nil fun j hj hlt => ?_,
        nil_append]
      · exact ih hall' hsorted' hchain' hbounds' hstop hafter
      · exact covered_of_mem he hj (by omega)

/-- No edit takes an element away that no window covers. -/
theorem uncovered_sublist_applyDesc (hsorted : edits.Pairwise fun a b => a.start ≤ b.start)
    (hchain : ChainToCover edits edits l.length) (hbounds : ∀ e ∈ edits, e.stop ≤ l.length) :
    (uncovered edits l).Sublist (applyDesc edits l) :=
  uncoveredFrom_sublist_drop (List.Subset.refl _) hsorted hchain hbounds (Nat.zero_le _)
    fun _ _ => Nat.zero_le _

/-! ## Insertions after positions -/

/-- Each element is inserted after its position, the last first. -/
def insertAfter (new : List (Nat × α)) (l : List α) : List α :=
  new.foldr (fun p l => l.insertIdx (p.1 + 1) p.2) l

theorem insertIdx_length_add_one (pre rest : List α) (a b : α) :
    (pre ++ a :: rest).insertIdx (pre.length + 1) b = pre ++ a :: b :: rest := by
  induction pre with
  | nil => rfl
  | cons c pre ih => exact congrArg (c :: ·) ih

/-- What is inserted after some of the elements comes right after them. -/
theorem insertAfter_zipIdx (f : α → Option α) (pre l : List α) :
    insertAfter ((l.zipIdx pre.length).filterMap fun p => (f p.1).map (p.2, ·)) (pre ++ l) =
      pre ++ l.flatMap fun a => a :: (f a).toList := by
  induction l generalizing pre with
  | nil => rfl
  | cons a l ih =>
    have hrest := ih (pre ++ [a])
    rw [append_assoc, append_assoc, length_append, length_singleton] at hrest
    rw [zipIdx_cons, filterMap_cons, flatMap_cons]
    cases hf : f a with
    | none => exact hrest
    | some b =>
      exact (congrArg (fun l => l.insertIdx (pre.length + 1) b) hrest).trans
        (insertIdx_length_add_one pre _ a b)

end Splice
