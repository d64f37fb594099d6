import Mathlib.Algebra.BigOperators.Group.Finset.Piecewise
import Mathlib.Algebra.Group.Action.Defs
import Mathlib.Algebra.Order.BigOperators.Group.Finset
import Mathlib.Data.List.Nodup
import Mathlib.Data.List.Perm.Basic
import Mathlib.Logic.Relation
import ClassTree.Loader.Order

/-!
# Depth-first orders respect dependencies

A walk from a stack of items keeps `Walk.Sound`: an item that was discovered and is not finished is on the stack, all that
stands above it comes after it, and every item that needs it is finished or stands above it. So an item is finished after
all that need it, and since there is fuel enough to empty the stack, the order of a whole walk is complete.

* `Dependencies.toposort_sorted?`: an order is found iff there is no cycle, and then every item comes once, after all that
  it needs.
-/

namespace ClassTree.Dependencies

open Relation

variable {d : Dependencies}

/-- The second item needs the first. -/
def Edge (d : Dependencies) (i j : Nat) : Prop := (i, j) ∈ d.edges

/-- No item needs itself, also not by way of others. -/
def Acyclic (d : Dependencies) : Prop := ∀ i, ¬ TransGen d.Edge i i

/-- Edges are between items. -/
def InRange (d : Dependencies) : Prop := ∀ i j, d.Edge i j → i < d.count ∧ j < d.count

theorem mem_dependents {i j : Nat} : j ∈ d.dependents i ↔ d.Edge i j := by
  simp [dependents, Edge]

/-! ## Finished items -/

/-- All that need an item of the list come after it. -/
def Closed (d : Dependencies) : List Nat → Prop
  | [] => True
  | i :: rest => (∀ j, d.Edge i j → j ∈ rest) ∧ Closed d rest

theorem Closed.mem {l : List Nat} (h : d.Closed l) {i j : Nat} (hi : i ∈ l) (hij : d.Edge i j) : j ∈ l := by
  induction l with
  | nil => cases hi
  | cons k l ih =>
    rcases List.mem_cons.1 hi with rfl | hi
    · exact List.mem_cons_of_mem _ (h.1 j hij)
    · exact List.mem_cons_of_mem _ (ih h.2 hi)

theorem Closed.idxOf_lt {l : List Nat} (h : d.Closed l) (hnodup : l.Nodup) {i j : Nat} (hi : i ∈ l)
    (hij : d.Edge i j) : l.idxOf i < l.idxOf j := by
  induction l with
  | nil => cases hi
  | cons k l ih =>
    rw [List.nodup_cons] at hnodup
    have hj : j ∈ l := by
      rcases List.mem_cons.1 hi with rfl | hi
      · exact h.1 j hij
      · exact h.2.mem hi hij
    have hkj : k ≠ j := fun heq => hnodup.1 (heq ▸ hj)
    rw [List.idxOf_cons_ne _ hkj]
    by_cases hki : k = i
    · rw [hki, List.idxOf_cons_self]
      exact Nat.succ_pos _
    · rw [List.idxOf_cons_ne _ hki]
      have := ih h.2 hnodup.2 ((List.mem_cons.1 hi).resolve_left (Ne.symm hki))
      omega

/-! ## One step of a walk -/

/-- The part of a stack above the topmost place of an item. -/
def above (i : Nat) (stack : List Nat) : List Nat := stack.takeWhile (· ≠ i)

theorem above_cons_self (i : Nat) (stack : List Nat) : above i (i :: stack) = [] := by
  simp [above]

theorem above_cons_ne {i k : Nat} (h : k ≠ i) (stack : List Nat) : above i (k :: stack) = k :: above i stack := by
  simp [above, h]

theorem above_append {i : Nat} {next : List Nat} (h : i ∉ next) (stack : List Nat) :
    above i (next ++ stack) = next ++ above i stack := by
  refine List.takeWhile_append_of_pos fun k hk => ?_
  simp only [ne_eq, decide_not, Bool.not_eq_true', decide_eq_false_iff_not]
  rintro rfl
  exact h hk

/-- What holds between a stack and what has been discovered and finished. -/
structure Walk.Sound (d : Dependencies) (stack : List Nat) (w : Walk) : Prop where
  onStack : ∀ i ∈ stack, i < d.count
  discovered : ∀ i ∈ w.discovered, i < d.count
  finished : ∀ i ∈ w.finished, i ∈ w.discovered
  waiting : ∀ i ∈ w.discovered, i ∉ w.finished → i ∈ stack
  reaches : ∀ i ∈ w.discovered, i ∉ w.finished → ∀ j ∈ above i stack, TransGen d.Edge i j
  needed : ∀ i ∈ w.discovered, i ∉ w.finished → ∀ j, d.Edge i j → j ∈ w.finished ∨ j ∈ above i stack
  closed : d.Closed w.finished
  nodup : w.finished.Nodup

namespace Walk.Sound

variable {i : Nat} {stack : List Nat} {w : Walk}

/-- A finished item is left. -/
theorem leave (h : Sound d (i :: stack) w) (hi : i ∈ w.finished) : Sound d stack w := by
  have hne : ∀ k, k ∉ w.finished → i ≠ k := fun k hk heq => hk (heq ▸ hi)
  refine ⟨fun k hk => h.onStack k (List.mem_cons_of_mem _ hk), h.discovered, h.finished, fun k hk hopen => ?_,
    fun k hk hopen j hj => ?_, fun k hk hopen j hj => ?_, h.closed, h.nodup⟩
  · exact (List.mem_cons.1 (h.waiting k hk hopen)).resolve_left (hne k hopen).symm
  · refine h.reaches k hk hopen j ?_
    rw [above_cons_ne (hne k hopen)]
    exact List.mem_cons_of_mem _ hj
  · rcases h.needed k hk hopen j hj with hj | hj
    · exact .inl hj
    · rw [above_cons_ne (hne k hopen)] at hj
      rcases List.mem_cons.1 hj with rfl | hj
      · exact .inl hi
      · exact .inr hj

/-- A discovered item on the top of the stack is finished: all that need it are. -/
theorem finish (h : Sound d (i :: stack) w) (hdisc : i ∈ w.discovered) (hopen : i ∉ w.finished) :
    Sound d (i :: stack) { w with finished := i :: w.finished } := by
  have hstill : ∀ k, k ∉ i :: w.finished → k ∉ w.finished := fun k hk hmem => hk (List.mem_cons_of_mem _ hmem)
  refine ⟨h.onStack, h.discovered, fun k hk => ?_, fun k hk hk' => h.waiting k hk (hstill k hk'),
    fun k hk hk' => h.reaches k hk (hstill k hk'), fun k hk hk' j hj => ?_, ⟨fun j hj => ?_, h.closed⟩,
    List.nodup_cons.2 ⟨hopen, h.nodup⟩⟩
  · rcases List.mem_cons.1 hk with rfl | hk
    · exact hdisc
    · exact h.finished k hk
  · exact (h.needed k hk (hstill k hk') j hj).imp_left (List.mem_cons_of_mem _)
  · have hneeded := h.needed i hdisc hopen j hj
    rw [above_cons_self] at hneeded
    exact hneeded.resolve_right List.not_mem_nil

/-- An item is discovered, and those that need it and are not yet discovered are put on the stack. -/
theorem discover (hacyclic : d.Acyclic) (hrange : d.InRange) (h : Sound d (i :: stack) w) (hnew : i ∉ w.discovered) :
    Sound d (((d.dependents i).filter (· ∉ i :: w.discovered)).reverse ++ i :: stack)
      { w with discovered := i :: w.discovered } := by
  generalize hnext : ((d.dependents i).filter (· ∉ i :: w.discovered)).reverse = next
  have hmem : ∀ j, j ∈ next ↔ d.Edge i j ∧ j ∉ i :: w.discovered := by
    intro j
    rw [← hnext, List.mem_reverse, List.mem_filter, mem_dependents, decide_eq_true_eq]
  have hold : ∀ k ∈ i :: w.discovered, k ∉ next := fun k hk hmem' => ((hmem k).1 hmem').2 hk
  have hself : above i (next ++ i :: stack) = next := by
    rw [above_append (hold i List.mem_cons_self), above_cons_self, List.append_nil]
  have hother : ∀ k ∈ w.discovered, above k (next ++ i :: stack) = next ++ above k (i :: stack) :=
    fun k hk => above_append (hold k (List.mem_cons_of_mem _ hk)) _
  have hne : ∀ k ∈ w.discovered, i ≠ k := fun k hk heq => hnew (heq ▸ hk)
  -- What is discovered and not finished stands below the item, so the item comes after it.
  have hbelow : ∀ k ∈ w.discovered, k ∉ w.finished → TransGen d.Edge k i := by
    intro k hk hopen
    refine h.reaches k hk hopen i ?_
    rw [above_cons_ne (hne k hk)]
    exact List.mem_cons_self
  refine ⟨fun k hk => ?_, fun k hk => ?_, fun k hk => List.mem_cons_of_mem _ (h.finished k hk), fun k hk hopen => ?_,
    fun k hk hopen j hj => ?_, fun k hk hopen j hj => ?_, h.closed, h.nodup⟩
  · rcases List.mem_append.1 hk with hk | hk
    · exact (hrange i k ((hmem k).1 hk).1).2
    · exact h.onStack k hk
  · rcases List.mem_cons.1 hk with rfl | hk
    · exact h.onStack k List.mem_cons_self
    · exact h.discovered k hk
  · refine List.mem_append_right _ ?_
    rcases List.mem_cons.1 hk with rfl | hk
    · exact List.mem_cons_self
    · exact h.waiting k hk hopen
  · rcases List.mem_cons.1 hk with rfl | hk
    · rw [hself] at hj
      exact .single ((hmem j).1 hj).1
    · rw [hother k hk] at hj
      rcases List.mem_append.1 hj with hj | hj
      · exact (hbelow k hk hopen).tail ((hmem j).1 hj).1
      · exact h.reaches k hk hopen j hj
  · rcases List.mem_cons.1 hk with rfl | hk
    · rw [hself, hmem]
      by_cases hdisc : j ∈ w.discovered
      · refine .inl (by_contra fun hopen' => ?_)
        exact hacyclic j ((hbelow j hdisc hopen').tail hj)
      · refine .inr ⟨hj, fun hmem' => ?_⟩
        rcases List.mem_cons.1 hmem' with rfl | hmem'
        · exact hacyclic j (.single hj)
        · exact hdisc hmem'
    · rw [hother k hk]
      exact (h.needed k hk hopen j hj).imp_right (List.mem_append_right _)

end Walk.Sound

/-! ## Whole walks -/

/-- A bound for the steps of a walk that is left: every place on the stack is left once, and every item that is not yet
discovered puts those that need it on the stack. -/
def stepsLeft (d : Dependencies) (stack : List Nat) (w : Walk) : Nat :=
  stack.length + ∑ i ∈ Finset.range d.count \ w.discovered.toFinset, ((d.dependents i).length + 1)

theorem stepsLeft_discover {i : Nat} (stack : List Nat) {w : Walk} (hi : i < d.count) (hnew : i ∉ w.discovered)
    {next : List Nat} (hnext : next.length ≤ (d.dependents i).length) :
    d.stepsLeft (next ++ i :: stack) { w with discovered := i :: w.discovered } + 1 ≤ d.stepsLeft (i :: stack) w := by
  have hmem : i ∈ Finset.range d.count \ w.discovered.toFinset := by simp [hi, hnew]
  have herase : Finset.range d.count \ (i :: w.discovered).toFinset =
      (Finset.range d.count \ w.discovered.toFinset).erase i := by
    ext k
    simp only [Finset.mem_sdiff, Finset.mem_range, List.mem_toFinset, List.mem_cons, Finset.mem_erase]
    tauto
  have hsum := Finset.add_sum_erase _ (fun i => (d.dependents i).length + 1) hmem
  simp only [stepsLeft, herase, List.length_append, List.length_cons]
  omega

/-- Every edge is counted once, with the item that it starts from. -/
theorem sum_dependents_le (edges : List (Nat × Nat)) (n : Nat) :
    ∑ i ∈ Finset.range n, (Dependencies.dependents ⟨n, edges⟩ i).length ≤ edges.length := by
  induction edges with
  | nil => simp [dependents]
  | cons e edges ih =>
    have hone : ∀ i, (Dependencies.dependents ⟨n, e :: edges⟩ i).length =
        (Dependencies.dependents ⟨n, edges⟩ i).length + if e.1 = i then 1 else 0 := by
      intro i
      by_cases h : e.1 = i <;> simp [dependents, h]
    simp only [hone, Finset.sum_add_distrib, Finset.sum_ite_eq, List.length_cons]
    split <;> omega

/-- The fuel of a walk from a single item suffices. -/
theorem stepsLeft_start {i : Nat} {w : Walk} (hi : i < d.count) : d.stepsLeft [i] w ≤ 2 * d.count + d.edges.length := by
  have hsub : ∑ i ∈ Finset.range d.count \ w.discovered.toFinset, ((d.dependents i).length + 1) ≤
      ∑ i ∈ Finset.range d.count, ((d.dependents i).length + 1) :=
    Finset.sum_le_sum_of_subset Finset.sdiff_subset
  have hedges : ∑ i ∈ Finset.range d.count, (d.dependents i).length ≤ d.edges.length :=
    sum_dependents_le d.edges d.count
  have hall : ∑ i ∈ Finset.range d.count, ((d.dependents i).length + 1) ≤ d.edges.length + d.count := by
    simp only [Finset.sum_add_distrib, Finset.sum_const, Finset.card_range, smul_eq_mul, mul_one]
    omega
  simp only [stepsLeft, List.length_singleton]
  omega

/-- A walk with fuel enough ends with an empty stack, and has discovered all that was on it. -/
theorem walk_sound (hacyclic : d.Acyclic) (hrange : d.InRange) {fuel : Nat} {stack : List Nat} {w : Walk}
    (hfuel : d.stepsLeft stack w ≤ fuel) (h : w.Sound d stack) :
    (d.walk fuel stack w).Sound d [] ∧ ∀ i, i ∈ stack ∨ i ∈ w.discovered → i ∈ (d.walk fuel stack w).discovered := by
  induction fuel generalizing stack w with
  | zero =>
    have hempty : stack = [] := List.length_eq_zero_iff.1 (by simp only [stepsLeft] at hfuel; omega)
    subst hempty
    exact ⟨h, fun i hi => hi.resolve_left List.not_mem_nil⟩
  | succ fuel ih =>
    match stack with
    | [] => exact ⟨h, fun i hi => hi.resolve_left List.not_mem_nil⟩
    | i :: stack =>
      by_cases hdisc : i ∈ w.discovered
      · have hleft : ∀ w' : Walk, w'.discovered = w.discovered → d.stepsLeft stack w' ≤ fuel := by
          intro w' hw'
          simp only [stepsLeft, hw', List.length_cons] at hfuel ⊢
          omega
        have hkept : ∀ w' : Walk, w'.discovered = w.discovered → w'.Sound d stack →
            (d.walk fuel stack w').Sound d [] ∧
              ∀ k, k ∈ i :: stack ∨ k ∈ w.discovered → k ∈ (d.walk fuel stack w').discovered := by
          intro w' hw' hs
          obtain ⟨hsound, hall⟩ := ih (hleft w' hw') hs
          refine ⟨hsound, fun k hk => hall k ?_⟩
          rw [hw']
          rcases hk with hk | hk
          · rcases List.mem_cons.1 hk with rfl | hk
            · exact .inr hdisc
            · exact .inl hk
          · exact .inr hk
        rw [walk, if_pos hdisc]
        by_cases hfin : i ∈ w.finished
        · rw [if_pos hfin]
          exact hkept w rfl (h.leave hfin)
        · rw [if_neg hfin]
          exact hkept _ rfl ((h.finish hdisc hfin).leave List.mem_cons_self)
      · rw [walk, if_neg hdisc]
        have hlength : ((d.dependents i).filter (· ∉ i :: w.discovered)).reverse.length ≤ (d.dependents i).length := by
          rw [List.length_reverse]
          exact List.length_filter_le _ _
        have hsteps := stepsLeft_discover stack (h.onStack i List.mem_cons_self) hdisc hlength
        obtain ⟨hsound, hall⟩ := ih (by omega) (h.discover hacyclic hrange hdisc)
        refine ⟨hsound, fun k hk => hall k ?_⟩
        rcases hk with hk | hk
        · exact .inl (List.mem_append_right _ hk)
        · exact .inr (List.mem_cons_of_mem _ hk)

theorem visit_sound (hacyclic : d.Acyclic) (hrange : d.InRange) {i : Nat} (hi : i < d.count) {w : Walk}
    (h : w.Sound d []) :
    (d.visit w i).Sound d [] ∧ ∀ k, k = i ∨ k ∈ w.discovered → k ∈ (d.visit w i).discovered := by
  unfold visit
  by_cases hdisc : i ∈ w.discovered
  · rw [if_pos hdisc]
    refine ⟨h, ?_⟩
    rintro k (rfl | hk)
    · exact hdisc
    · exact hk
  · rw [if_neg hdisc]
    -- All that was discovered before is finished, so the item may be put on the empty stack.
    have hdone : ∀ k ∈ w.discovered, k ∈ w.finished := by
      intro k hk
      by_contra hopen
      cases h.waiting k hk hopen
    have hstart : w.Sound d [i] := by
      refine ⟨fun k hk => ?_, h.discovered, h.finished, fun k hk hopen => absurd (hdone k hk) hopen,
        fun k hk hopen => absurd (hdone k hk) hopen, fun k hk hopen => absurd (hdone k hk) hopen, h.closed, h.nodup⟩
      rw [List.mem_singleton.1 hk]
      exact hi
    obtain ⟨hsound, hall⟩ := walk_sound hacyclic hrange (stepsLeft_start hi) hstart
    exact ⟨hsound, fun k hk => hall k (hk.imp_left List.mem_singleton.2)⟩

/-- The order of a walk has every item once, each before all that need it. -/
theorem walkOrder_sound (hacyclic : d.Acyclic) (hrange : d.InRange) :
    d.walkOrder.Perm (List.range d.count) ∧ d.Closed d.walkOrder := by
  have hfold : ∀ (is : List Nat) (w : Walk), (∀ i ∈ is, i < d.count) → w.Sound d [] →
      (is.foldl d.visit w).Sound d [] ∧ ∀ k, k ∈ is ∨ k ∈ w.discovered → k ∈ (is.foldl d.visit w).discovered := by
    intro is
    induction is with
    | nil => exact fun w _ h => ⟨h, fun k hk => hk.resolve_left List.not_mem_nil⟩
    | cons i is ih =>
      intro w his h
      obtain ⟨hsound, hvisited⟩ := visit_sound hacyclic hrange (his i List.mem_cons_self) h
      obtain ⟨hrest, hall⟩ := ih _ (fun k hk => his k (List.mem_cons_of_mem _ hk)) hsound
      refine ⟨hrest, fun k hk => hall k ?_⟩
      rcases hk with hk | hk
      · rcases List.mem_cons.1 hk with rfl | hk
        · exact .inr (hvisited k (.inl rfl))
        · exact .inl hk
      · exact .inr (hvisited k (.inr hk))
  have hempty : Walk.Sound d [] ⟨[], []⟩ := ⟨nofun, nofun, nofun, nofun, nofun, nofun, trivial, List.nodup_nil⟩
  obtain ⟨hsound, hall⟩ := hfold (List.range d.count) ⟨[], []⟩ (fun i hi => List.mem_range.1 hi) hempty
  refine ⟨(List.perm_ext_iff_of_nodup hsound.nodup List.nodup_range).2 fun i => ⟨fun hi => ?_, fun hi => ?_⟩,
    hsound.closed⟩
  · exact List.mem_range.2 (hsound.discovered i (hsound.finished i hi))
  · by_contra hopen
    cases hsound.waiting i (hall i (.inl hi)) hopen

/-! ## Orders -/

theorem respects_iff {order : List Nat} :
    d.respects order = true ↔ ∀ i j, d.Edge i j → order.idxOf i < order.idxOf j := by
  simp [respects, Edge]

/-- No order respects dependencies that have a cycle. -/
theorem acyclic_of_respects {order : List Nat} (h : d.respects order = true) : d.Acyclic := by
  have hpath : ∀ i j, TransGen d.Edge i j → order.idxOf i < order.idxOf j := by
    intro i j hij
    induction hij with
    | single hedge => exact respects_iff.1 h _ _ hedge
    | tail _ hedge ih => exact ih.trans (respects_iff.1 h _ _ hedge)
  exact fun i hi => Nat.lt_irrefl _ (hpath i i hi)

/-- **Topological sorts.** In an order that a sort finds every item comes once, and after all that it needs; and an order
is found iff there is no cycle. -/
structure Toposort (sort : Dependencies → Option (List Nat)) : Prop where
  perm : ∀ d order, d.InRange → sort d = some order → order.Perm (List.range d.count)
  before : ∀ d order, d.InRange → sort d = some order → ∀ i j, d.Edge i j → order.idxOf i < order.idxOf j
  isSome_iff : ∀ d, d.InRange → ((sort d).isSome = true ↔ d.Acyclic)

theorem sorted?_eq_some_iff {order : List Nat} :
    d.sorted? = some order ↔ d.respects d.walkOrder = true ∧ d.walkOrder = order := by
  simp [sorted?]

/-- Depth-first walks give a topological sort. -/
theorem toposort_sorted? : Toposort sorted? where
  perm d order hrange h := by
    obtain ⟨hrespects, rfl⟩ := sorted?_eq_some_iff.1 h
    exact (walkOrder_sound (acyclic_of_respects hrespects) hrange).1
  before d order _ h := by
    obtain ⟨hrespects, rfl⟩ := sorted?_eq_some_iff.1 h
    exact respects_iff.1 hrespects
  isSome_iff d hrange := by
    constructor
    · intro hfound
      obtain ⟨order, h⟩ := Option.isSome_iff_exists.1 hfound
      exact acyclic_of_respects (sorted?_eq_some_iff.1 h).1
    · intro hacyclic
      obtain ⟨hperm, hclosed⟩ := walkOrder_sound hacyclic hrange
      have hbefore : ∀ i j, d.Edge i j → d.walkOrder.idxOf i < d.walkOrder.idxOf j := fun i j hij =>
        hclosed.idxOf_lt (hperm.nodup_iff.2 List.nodup_range)
          (hperm.mem_iff.2 (List.mem_range.2 (hrange i j hij).1)) hij
      exact Option.isSome_iff_exists.2 ⟨_, sorted?_eq_some_iff.2 ⟨respects_iff.2 hbefore, rfl⟩⟩

end ClassTree.Dependencies
