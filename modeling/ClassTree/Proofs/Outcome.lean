import Mathlib.Data.List.Forall2
import ClassTree.Machine

/-!
# Outcomes of computations

* Success of a check that is put together from smaller ones (`bind_eq_ok`, `orFail_eq_ok`, `require_eq_ok`).
* `Triple x m Q E`: the computation `x`, begun in the machine `m`, ends in a value and a machine with `Q`, or halts in a
  machine with `E`. There is one rule for each way in which the machine's computations are put together.
-/

namespace ClassTree

/-! ## Checks -/

section Checks

variable {ε α β : Type}

theorem bind_eq_ok {x : Except ε α} {f : α → Except ε β} {b : β} :
    x >>= f = .ok b ↔ ∃ a, x = .ok a ∧ f a = .ok b := by
  cases x <;> simp [bind, Except.bind]

theorem pure_eq_ok {a b : α} : (pure a : Except ε α) = .ok b ↔ a = b := by
  simp [pure, Except.pure]

theorem orFail_eq_ok {e : ε} {o : Option α} {a : α} : orFail e o = .ok a ↔ o = some a := by
  cases o <;> simp [orFail]

theorem require_eq_ok {e : ε} {c : Bool} {u : Unit} : require c e = .ok u ↔ c = true := by
  cases c <;> simp [require]

/-- All items of a list can be read iff each of them can. -/
theorem mapM_eq_some {f : α → Option β} {xs : List α} {ys : List β} :
    xs.mapM f = some ys ↔ List.Forall₂ (fun x y => f x = some y) xs ys := by
  induction xs generalizing ys with
  | nil => cases ys <;> simp
  | cons x xs ih =>
    rw [List.mapM_cons]
    constructor
    · intro h
      obtain ⟨y, hy, h⟩ := Option.bind_eq_some_iff.1 h
      obtain ⟨zs, hzs, h⟩ := Option.bind_eq_some_iff.1 h
      cases h
      exact .cons hy (ih.1 hzs)
    · rintro (_ | ⟨hy, hys⟩)
      simp [hy, ih.2 hys]

theorem exists_left {R : α → β → Prop} {xs : List α} {ys : List β} (h : List.Forall₂ R xs ys) {y : β}
    (hy : y ∈ ys) : ∃ x ∈ xs, R x y := by
  induction h with
  | nil => cases hy
  | cons hxy _ ih =>
    rcases List.mem_cons.1 hy with rfl | hy
    · exact ⟨_, List.mem_cons_self, hxy⟩
    · obtain ⟨x, hx, hR⟩ := ih hy
      exact ⟨x, List.mem_cons_of_mem _ hx, hR⟩

theorem exists_right {R : α → β → Prop} {xs : List α} {ys : List β} (h : List.Forall₂ R xs ys) {x : α}
    (hx : x ∈ xs) : ∃ y ∈ ys, R x y := by
  obtain ⟨y, hy, hR⟩ := exists_left h.flip hx
  exact ⟨y, hy, hR⟩

theorem forall₂_flip_of_mem {R : α → β → Prop} {S : β → α → Prop} {xs : List α} {ys : List β} (h : List.Forall₂ R xs ys)
    (himp : ∀ x ∈ xs, ∀ y ∈ ys, R x y → S y x) : List.Forall₂ S ys xs := by
  induction h with
  | nil => exact .nil
  | cons hxy _ ih =>
    refine .cons (himp _ List.mem_cons_self _ List.mem_cons_self hxy) (ih fun x hx y hy => ?_)
    exact himp x (List.mem_cons_of_mem _ hx) y (List.mem_cons_of_mem _ hy)

end Checks

/-! ## Computations of the machine -/

/-- From the machine `m` the computation ends in a value with `Q`, or halts with `E`. -/
def Triple {α : Type} (x : Run α) (m : Machine) (Q : α → Machine → Prop) (E : Halt → Machine → Prop) : Prop :=
  match x m with
  | .ok a m => Q a m
  | .error e m => E e m

namespace Triple

variable {α β : Type} {m : Machine} {Q Q' : α → Machine → Prop} {R : β → Machine → Prop}
  {E E' : Halt → Machine → Prop}

theorem pure {a : α} (h : Q a m) : Triple (Pure.pure a) m Q E := h

theorem throw {e : Halt} (h : E e m) : Triple (MonadExcept.throw e : Run α) m Q E := h

theorem fail {e : RuntimeError} (h : E (.failure e) m) : Triple (Run.fail e : Run α) m Q E := h

theorem bind {x : Run α} {f : α → Run β} (hx : Triple x m Q E) (hf : ∀ a m, Q a m → Triple (f a) m R E) :
    Triple (x >>= f) m R E := by
  unfold Triple at hx ⊢
  change (match EStateM.bind x f m with | .ok a m => R a m | .error e m => E e m)
  unfold EStateM.bind
  cases h : x m with
  | ok a m' => rw [h] at hx; exact hf a m' hx
  | error e m' => rw [h] at hx; exact hx

theorem mono {x : Run α} (h : Triple x m Q E) (hQ : ∀ a m, Q a m → Q' a m) (hE : ∀ e m, E e m → E' e m) :
    Triple x m Q' E' := by
  unfold Triple at h ⊢
  cases hx : x m with
  | ok a m' => rw [hx] at h; exact hQ a m' h
  | error e m' => rw [hx] at h; exact hE e m' h

theorem get {Q : Machine → Machine → Prop} (h : Q m m) : Triple MonadState.get m Q E := h

theorem changeDepth {f : Nat → Nat} {Q : Unit → Machine → Prop} (h : Q () { m with depth := f m.depth }) :
    Triple (Run.changeDepth f) m Q E := h

theorem need {o : Option α} {e : Unit → RuntimeError} (hs : ∀ a, o = some a → Q a m)
    (hn : o = none → E (.failure (e ())) m) : Triple (Run.need o e) m Q E := by
  cases o with
  | some a => exact hs a rfl
  | none => exact hn rfl

theorem ofExcept {x : Except RuntimeError α} (hs : ∀ a, x = .ok a → Q a m)
    (hn : ∀ e, x = .error e → E (.failure e) m) : Triple (Run.ofExcept x) m Q E := by
  cases x with
  | ok a => exact hs a rfl
  | error e => exact hn e rfl

theorem ask {f : Heap → Except RuntimeError α} (hs : ∀ a, f m.heap = .ok a → Q a m)
    (hn : ∀ e, f m.heap = .error e → E (.failure e) m) : Triple (Run.ask f) m Q E :=
  bind (get (Q := fun a m' => a = m ∧ m' = m) ⟨rfl, rfl⟩) fun _ _ h => by
    obtain ⟨rfl, rfl⟩ := h
    exact ofExcept hs hn

theorem onHeap {f : Heap → Heap} {Q : Unit → Machine → Prop} (h : Q () { m with heap := f m.heap }) :
    Triple (Run.onHeap f) m Q E := h

theorem keep {name : String} {c : LoadedClass} {Q : Unit → Machine → Prop}
    (h : Q () { m with links := m.links.insert name c }) : Triple (Run.keep name c) m Q E := h

theorem alloc {cls : LoadedClass} {Q : Value → Machine → Prop}
    (h : Q (.object (m.heap.alloc cls).1) { m with heap := (m.heap.alloc cls).2 }) : Triple (Run.alloc cls) m Q E := h

theorem deeper {x : Run α}
    (h : Triple x { m with depth := m.depth + 1 } (fun a m => Q a { m with depth := m.depth - 1 })
      fun e m => E e { m with depth := m.depth - 1 }) : Triple (Run.deeper x) m Q E := by
  unfold Triple at h ⊢
  unfold Run.deeper
  cases hx : x { m with depth := m.depth + 1 } with
  | ok a m' => rw [hx] at h; exact h
  | error e m' => rw [hx] at h; exact h

theorem nest {x : Run α} (hover : E (.failure (.stackOverflow m.depth)) m)
    (h : Triple x { m with depth := m.depth + 1, nestedRuns := m.nestedRuns + 1 }
      (fun a m' => Q a { m' with depth := m.depth, nestedRuns := m'.nestedRuns - 1 })
      fun e m' => E e { m' with depth := m.depth, nestedRuns := m'.nestedRuns - 1 }) :
    Triple (Run.nest x) m Q E := by
  unfold Triple at h ⊢
  unfold Run.nest
  by_cases hn : m.nestedRuns ≥ maxNestedRuns
  · rw [if_pos hn]
    exact hover
  · rw [if_neg hn]
    dsimp only
    cases hx : x { m with depth := m.depth + 1, nestedRuns := m.nestedRuns + 1 } with
    | ok a m' => rw [hx] at h; exact h
    | error e m' => rw [hx] at h; exact h

end Triple

end ClassTree
