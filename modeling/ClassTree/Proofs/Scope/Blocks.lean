import ClassTree.Proofs.Scope.Slots

/-!
# Blocks of a scope

The count of open blocks has 32 bits. `Scope.Bounded s as`: it does not wrap while the actions `as` are done to the scope `s`.
Then, whatever is done to a scope from its start on, the variables that it shows are those of a list (`Scope.exists_shows_run`).

`Scope.Balanced as`: in the actions `as` each block that is opened is closed again and no other is closed. Such actions add
variables to the innermost block alone (`Scope.Balanced.exists_adds`), and the end of that block takes them away. So a block
leaves the scope as it found it, but for the slots that it used up (`Scope.blocks_bracketed`).
-/

namespace ClassTree.Scope

variable {s : Scope} {ls : List Local}

/-! ## The count of open blocks -/

/-- No block is opened while `2 ^ 32 - 1` are open: where arithmetic is checked the next one stops the program, and elsewhere
the count starts again from 0. -/
def Bounded : Scope → List Action → Prop
  | _, [] => True
  | s, a :: as => (a = .push → s.depth + 1 < depthLimit) ∧ Bounded (s.act a).2 as

theorem bounded_append {as bs : List Action} : s.Bounded (as ++ bs) ↔ s.Bounded as ∧ (s.run as).2.Bounded bs := by
  induction as generalizing s with
  | nil => simp [Bounded, run]
  | cons a as ih => rw [List.cons_append, Bounded, Bounded, run, ih, and_assoc]

/-- A block in which the count does not wrap is opened as that of a statement is. -/
theorem push_eq_enter (h : s.depth + 1 < depthLimit) : s.push = s.enter := by
  rw [push, enter, Nat.mod_eq_of_lt h]

def Action.opens : Action → Bool
  | .push => true
  | _ => false

/-- The count does not wrap as long as fewer than `2 ^ 32` blocks are opened in all. -/
theorem bounded_of_lt {as : List Action} (h : s.depth + as.countP Action.opens < depthLimit) : s.Bounded as := by
  induction as generalizing s with
  | nil => trivial
  | cons a as ih =>
    rw [List.countP_cons] at h
    cases a with
    | push =>
      have hopen : s.depth + 1 < depthLimit := by simp only [Action.opens, reduceIte] at h; omega
      refine ⟨fun _ => hopen, ih ?_⟩
      rw [act, push_eq_enter hopen]
      simp only [Action.opens, enter, reduceIte] at h ⊢
      omega
    | pop =>
      refine ⟨fun h => (by cases h), ih ?_⟩
      simp only [Action.opens, act, pop] at h ⊢
      omega
    | declare name ty =>
      obtain ⟨news, hadds⟩ := s.exists_adds_declare name ty
      refine ⟨fun h => (by cases h), ih ?_⟩
      rw [act, hadds.depth]
      simpa [Action.opens] using h

/-! ## What a scope shows -/

/-- The end of a block keeps the variables that were declared outside of it. -/
theorem Shows.pop_filter (h : s.Shows ls) : s.pop.Shows (ls.filter (·.depth < s.depth)) := by
  have hsub : (ls.filter (·.depth < s.depth)).Sublist ls := List.filter_sublist
  have hnames := h.names.sublist (hsub.map Local.name)
  refine ⟨fun x => ?_, hnames, h.slots.sublist hsub, fun v hv => h.slot_lt v (hsub.subset hv), fun v hv => ?_⟩
  · rw [lookup?_pop]
    cases hx : s.lookup? x with
    | none =>
      refine (List.find?_eq_none.2 fun v hv hvx => ?_).symm
      have hlookup := h.mem_iff.1 (hsub.subset hv)
      rw [of_decide_eq_true hvx, hx] at hlookup
      cases hlookup
    | some v =>
      obtain ⟨hv, rfl⟩ := h.mem_of_lookup? hx
      by_cases hdepth : v.depth < s.depth
      · rw [find?_name hnames (List.mem_filter.2 ⟨hv, decide_eq_true hdepth⟩), Option.filter, if_pos (decide_eq_true hdepth)]
      · -- A name belongs to one variable of the list only, and this one was declared in the block.
        rw [Option.filter, if_neg (by simpa using hdepth)]
        refine (List.find?_eq_none.2 fun w hw hwv => hdepth ?_).symm
        obtain ⟨hmem, hlt⟩ := List.mem_filter.1 hw
        rw [← List.inj_on_of_nodup_map h.names hmem hv (of_decide_eq_true hwv)]
        exact of_decide_eq_true hlt
  · have hlt := of_decide_eq_true (List.mem_filter.1 hv).2
    simp only [Scope.pop]
    omega

theorem Shows.act (h : s.Shows ls) (a : Action) (hbounded : a = .push → s.depth + 1 < depthLimit) :
    ∃ ls', (s.act a).2.Shows ls' := by
  cases a with
  | push =>
    rw [Scope.act, push_eq_enter (hbounded rfl)]
    exact ⟨ls, h.enter⟩
  | pop => exact ⟨_, h.pop_filter⟩
  | declare name ty =>
    obtain ⟨news, hadds⟩ := s.exists_adds_declare name ty
    exact ⟨_, hadds.visible ls h⟩

theorem Shows.run {as : List Action} (h : s.Shows ls) (hbounded : s.Bounded as) : ∃ ls', (s.run as).2.Shows ls' := by
  induction as generalizing s ls with
  | nil => exact ⟨ls, h⟩
  | cons a as ih =>
    obtain ⟨ls', h'⟩ := h.act a hbounded.1
    exact ih h' hbounded.2

/-- What a scope shows from its start on is a list of variables. -/
theorem exists_shows_run {as : List Action} (h : s = ofStatic ∨ s = ofInstance) (hbounded : s.Bounded as) :
    ∃ ls, (s.run as).2.Shows ls := by
  rcases h with rfl | rfl
  · exact shows_ofStatic.run hbounded
  · exact shows_ofInstance.run hbounded

/-! ## Balanced actions -/

/-- Each block that is opened is closed again, and no other is closed. -/
inductive Balanced : List Action → Prop where
  | nil : Balanced []
  | declare (name : String) (ty : Ty) {as : List Action} : Balanced as → Balanced (.declare name ty :: as)
  | block {inner as : List Action} : Balanced inner → Balanced as → Balanced (.push :: (inner ++ Action.pop :: as))

theorem run_block (s : Scope) (inner as : List Action) :
    (s.run (.push :: (inner ++ Action.pop :: as))).2 = ((s.push.run inner).2.pop.run as).2 := by
  rw [run, run_append]
  rfl

/-- Balanced actions add variables to the innermost block alone. -/
theorem Balanced.exists_adds {as : List Action} (h : Balanced as) (hbounded : s.Bounded as) :
    ∃ news, s.Adds news (s.run as).2 := by
  induction h generalizing s with
  | nil => exact ⟨[], .refl s⟩
  | declare name ty _ ih =>
    obtain ⟨news, hdeclare⟩ := s.exists_adds_declare name ty
    obtain ⟨more, hrest⟩ := ih hbounded.2
    exact ⟨_, hdeclare.trans hrest⟩
  | block _ _ ihInner ihRest =>
    obtain ⟨hopen, hafter⟩ := hbounded
    obtain ⟨hboundedInner, hclose⟩ := bounded_append.1 hafter
    obtain ⟨news, hinner⟩ := ihInner hboundedInner
    obtain ⟨more, hrest⟩ := ihRest hclose.2
    rw [act, push_eq_enter (hopen rfl)] at hinner hrest
    rw [run_block, push_eq_enter (hopen rfl)]
    exact ⟨_, hinner.pop.trans hrest⟩

/-- After a block the same variables are visible as before it, and as many blocks are open. -/
theorem Shows.block (h : s.Shows ls) {inner : List Action} (hinner : Balanced inner)
    (hbounded : s.Bounded (.push :: (inner ++ [Action.pop]))) :
    (∀ x, (s.run (.push :: (inner ++ [Action.pop]))).2.lookup? x = s.lookup? x) ∧
      (s.run (.push :: (inner ++ [Action.pop]))).2.depth = s.depth := by
  obtain ⟨hopen, hafter⟩ := hbounded
  obtain ⟨news, hadds⟩ := hinner.exists_adds (bounded_append.1 hafter).1
  rw [Scope.act, push_eq_enter (hopen rfl)] at hadds
  rw [run_block, push_eq_enter (hopen rfl)]
  exact ⟨fun x => ((hadds.pop.visible ls h).lookup x).trans (h.lookup x).symm, hadds.pop.depth⟩

/-! ## Refusals -/

theorem declare_eq_duplicate_iff (s : Scope) (x : String) (ty : Ty) :
    (s.declare x ty).1 = .error .duplicate ↔ (s.lookup? x).isSome = true := by
  rw [declare_fst]
  split
  · rename_i hx
    simp [hx]
  · rename_i hx
    split <;> simp [hx]

/-- A variable and two blocks, in which a name is taken twice and the name of a parameter is refused. -/
def nestedActions : List Action :=
  [.declare "x" .int, .push, .declare "y" .long, .declare "a" .int, .pop, .push, .declare "y" .boolean, .pop]

theorem balanced_nested : Balanced nestedActions :=
  .declare _ _ (.block (.declare _ _ (.declare _ _ .nil)) (.block (.declare _ _ .nil) .nil))

end ClassTree.Scope
