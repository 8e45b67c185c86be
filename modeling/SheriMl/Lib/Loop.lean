import Mathlib.Data.List.Flatten

/-!
# Loops with breaks

A loop over a list whose body may break out of it, and nested loops, where a break leaves all of
them. Nested loops that also stop when a budget is spent, before each list, end as one loop over
all the elements when the budget is enough (`budgeted_agree`). A loop with a condition runs on
fuel, and `iterate_spec` is its rule: an invariant, and a room that each iteration makes smaller.
-/

namespace Loop

universe u v w

variable {α : Type u} {β : Type v} {σ : Type w}

/-- A loop; `done` breaks. -/
def loop (step : α → σ → ForInStep σ) : List α → σ → ForInStep σ
  | [], s => .yield s
  | a :: l, s =>
    match step a s with
    | .yield s' => loop step l s'
    | .done s' => .done s'

/-- The state a loop ends in. -/
def state : ForInStep σ → σ
  | .yield s => s
  | .done s => s

section

variable {step step' : α → σ → ForInStep σ} {a : α} {l l' : List α} {s s' : σ}

@[simp] theorem loop_nil : loop step [] s = .yield s := rfl

@[simp] theorem state_yield : state (.yield s) = s := rfl

@[simp] theorem state_done : state (.done s) = s := rfl

theorem loop_cons_of_yield (h : step a s = .yield s') : loop step (a :: l) s = loop step l s' := by
  rw [loop, h]

theorem loop_cons_of_done (h : step a s = .done s') : loop step (a :: l) s = .done s' := by
  rw [loop, h]

theorem loop_append_of_yield (h : loop step l s = .yield s') :
    loop step (l ++ l') s = loop step l' s' := by
  induction l generalizing s with
  | nil =>
    cases h
    rfl
  | cons a l ih =>
    cases hstep : step a s with
    | yield t =>
      rw [loop_cons_of_yield hstep] at h
      rw [List.cons_append, loop_cons_of_yield hstep, ih h]
    | done t =>
      rw [loop_cons_of_done hstep] at h
      cases h

theorem loop_append_of_done (h : loop step l s = .done s') :
    loop step (l ++ l') s = .done s' := by
  induction l generalizing s with
  | nil => cases h
  | cons a l ih =>
    cases hstep : step a s with
    | yield t =>
      rw [loop_cons_of_yield hstep] at h
      rw [List.cons_append, loop_cons_of_yield hstep, ih h]
    | done t =>
      rw [loop_cons_of_done hstep] at h
      rw [List.cons_append, loop_cons_of_done hstep, h]

theorem loop_map (step : α → σ → ForInStep σ) (g : β → α) (l : List β) (s : σ) :
    loop step (l.map g) s = loop (fun b => step (g b)) l s := by
  induction l generalizing s with
  | nil => rfl
  | cons b l ih =>
    rw [List.map_cons, loop, loop]
    cases step (g b) s with
    | yield s' => exact ih s'
    | done s' => rfl

end

/-! ## Budgets -/

section Budget

variable {step : α → σ → ForInStep σ} {inner : β → σ → ForInStep σ} {elements : β → List α}
  {spent : σ → Nat} {budget : Nat} {l : List α} {dirs : List β} {s s' : σ} {r r' : ForInStep σ}

/-- A loop over lists that stops before a list when the budget is spent. -/
def budgeted (spent : σ → Nat) (budget : Nat) (inner : β → σ → ForInStep σ) :
    List β → σ → ForInStep σ :=
  loop fun b s => if budget ≤ spent s then .done s else inner b s

theorem budgeted_cons_of_spent {b : β} (hspent : budget ≤ spent s) :
    budgeted spent budget inner (b :: dirs) s = .done s := loop_cons_of_done (if_pos hspent)

theorem budgeted_cons_of_yield {b : β} (hspent : ¬budget ≤ spent s) (h : inner b s = .yield s') :
    budgeted spent budget inner (b :: dirs) s = budgeted spent budget inner dirs s' :=
  loop_cons_of_yield (by rw [if_neg hspent, h])

theorem budgeted_cons_of_done {b : β} (hspent : ¬budget ≤ spent s) (h : inner b s = .done s') :
    budgeted spent budget inner (b :: dirs) s = .done s' :=
  loop_cons_of_done (by rw [if_neg hspent, h])

/-- The same, but that the first may have stopped with the budget spent. -/
def Agree (spent : σ → Nat) (budget : Nat) (r r' : ForInStep σ) : Prop :=
  r = r' ∨ ∃ s, r = .done s ∧ r' = .yield s ∧ budget ≤ spent s

theorem Agree.state_eq (h : Agree spent budget r r') : state r = state r' := by
  rcases h with rfl | ⟨s, rfl, rfl, -⟩ <;> rfl

/-- Each element takes one of the budget. -/
def Counts (spent : σ → Nat) (step : α → σ → ForInStep σ) : Prop :=
  ∀ a s s', step a s = .yield s' → spent s' = spent s + 1

theorem Counts.loop (h : Counts spent step) (hloop : loop step l s = .yield s') :
    spent s' = spent s + l.length := by
  induction l generalizing s with
  | nil =>
    cases hloop
    rfl
  | cons a l ih =>
    cases hstep : step a s with
    | yield t =>
      rw [loop_cons_of_yield hstep] at hloop
      rw [ih hloop, h a s t hstep, List.length_cons]
      omega
    | done t =>
      rw [loop_cons_of_done hstep] at hloop
      cases hloop

/-- When the budget is enough, loops over the lists are one loop over all the elements. -/
theorem budgeted_agree (hcounts : Counts spent step)
    (hinner : ∀ b s, spent s + (elements b).length ≤ budget →
      Agree spent budget (inner b s) (loop step (elements b) s))
    (hbudget : spent s + (dirs.flatMap elements).length ≤ budget) :
    Agree spent budget (budgeted spent budget inner dirs s)
      (loop step (dirs.flatMap elements) s) := by
  induction dirs generalizing s with
  | nil => exact .inl rfl
  | cons b dirs ih =>
    rw [List.flatMap_cons, List.length_append] at hbudget
    rw [List.flatMap_cons]
    by_cases hspent : budget ≤ spent s
    · have hnone : elements b ++ dirs.flatMap elements = [] := by
        rw [← List.length_eq_zero_iff, List.length_append]
        omega
      rw [hnone, budgeted_cons_of_spent hspent]
      exact .inr ⟨s, rfl, rfl, hspent⟩
    · rcases hinner b s (by omega) with heq | ⟨s', hdone, hyield, hspent'⟩
      · cases hloop : loop step (elements b) s with
        | yield s' =>
          rw [budgeted_cons_of_yield hspent (heq.trans hloop), loop_append_of_yield hloop]
          have hs' := hcounts.loop hloop
          exact ih (by omega)
        | done s' =>
          rw [budgeted_cons_of_done hspent (heq.trans hloop), loop_append_of_done hloop]
          exact .inl rfl
      · have hs' := hcounts.loop hyield
        have hnone : dirs.flatMap elements = [] := by
          rw [← List.length_eq_zero_iff]
          omega
        rw [budgeted_cons_of_done hspent hdone, hnone, List.append_nil, hyield]
        exact .inr ⟨s', rfl, rfl, hspent'⟩

end Budget

/-! ## Loops with a condition -/

section Iterate

variable {ε : Type v} {again : σ → Bool} {body : σ → Except ε (ForInStep σ)} {stuck : ε}
  {Inv Post : σ → Prop} {Fails : ε → Prop} {s : σ}

/-- A loop that goes on as long as `again` does; `stuck` is its result without fuel. -/
def iterate (again : σ → Bool) (body : σ → Except ε (ForInStep σ)) (stuck : ε) :
    Nat → σ → Except ε σ
  | 0, s => if again s then .error stuck else .ok s
  | fuel + 1, s =>
    if again s then do
      match ← body s with
      | .yield s' => iterate again body stuck fuel s'
      | .done s' => .ok s'
    else .ok s

theorem iterate_yield {s' : σ} (h : again s = true) (hbody : body s = .ok (.yield s'))
    (fuel : Nat) : iterate again body stuck (fuel + 1) s = iterate again body stuck fuel s' := by
  rw [iterate, if_pos h, hbody]
  rfl

theorem iterate_done {s' : σ} (h : again s = true) (hbody : body s = .ok (.done s'))
    (fuel : Nat) : iterate again body stuck (fuel + 1) s = .ok s' := by
  rw [iterate, if_pos h, hbody]
  rfl

theorem iterate_error {e : ε} (h : again s = true) (hbody : body s = .error e) (fuel : Nat) :
    iterate again body stuck (fuel + 1) s = .error e := by
  rw [iterate, if_pos h, hbody]
  rfl

/-- An iteration fails, ends the loop, or keeps the invariant and leaves less room. -/
def Iterates (body : σ → Except ε (ForInStep σ)) (Inv Post : σ → Prop) (Fails : ε → Prop)
    (room : σ → Nat) (s : σ) : Prop :=
  (∃ e, body s = .error e ∧ Fails e) ∨ (∃ s', body s = .ok (.done s') ∧ Post s') ∨
    ∃ s', body s = .ok (.yield s') ∧ Inv s' ∧ room s' < room s

/-- A loop ends, without fuel only if that was less than the room. -/
theorem iterate_spec (room : σ → Nat) (hroom : ∀ s, again s = true → 0 < room s)
    (hexit : ∀ s, Inv s → again s = false → Post s)
    (hbody : ∀ s, Inv s → again s = true → Iterates body Inv Post Fails room s) (fuel : Nat)
    (hs : Inv s) :
    (iterate again body stuck fuel s = .error stuck ∧ fuel < room s) ∨
      (∃ e, iterate again body stuck fuel s = .error e ∧ Fails e) ∨
      ∃ s', iterate again body stuck fuel s = .ok s' ∧ Post s' := by
  induction fuel generalizing s with
  | zero =>
    rw [iterate]
    split
    next hagain => exact .inl ⟨rfl, hroom s hagain⟩
    next hagain => exact .inr (.inr ⟨s, rfl, hexit s hs (Bool.eq_false_iff.2 hagain)⟩)
  | succ fuel ih =>
    rw [iterate]
    split
    next hagain =>
      rcases hbody s hs hagain with ⟨e, he, hfails⟩ | ⟨s', hdone, hs'⟩ | ⟨s', hyield, hs', hlt⟩
      · rw [he]
        exact .inr (.inl ⟨e, rfl, hfails⟩)
      · rw [hdone]
        exact .inr (.inr ⟨s', rfl, hs'⟩)
      · rw [hyield]
        rcases ih hs' with ⟨hstuck, hfuel⟩ | hends
        · exact .inl ⟨hstuck, by omega⟩
        · exact .inr hends
    next hagain => exact .inr (.inr ⟨s, rfl, hexit s hs (Bool.eq_false_iff.2 hagain)⟩)

end Iterate

end Loop
