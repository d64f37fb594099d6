import ClassTree.Proofs.Scope.Extended

/-!
# Slots that a scope hands out

`Scope.Action` is what can be done to a scope, and `Scope.run` does a sequence of actions and gives the slots that were handed
out. They are numbered one after the other from the first free one, whatever blocks were opened and closed between them
(`Scope.slots_run`).

The number of slots that a method needs has no more bits than a slot. Of the slots that are handed out all but one are below it:
slot 65535 is still handed out, and a count that covers it would be 65536 (`Scope.slot_lt_maxLocals_iff`). It can be reached
with a single name, declared again and again in blocks of its own (`Scope.exists_slot_eq_maxLocals`).
-/

namespace ClassTree.Scope

/-- What can be done to a scope. -/
inductive Action where
  /-- Opens a block. -/
  | push
  /-- Closes the innermost block. -/
  | pop
  | declare (name : String) (ty : Ty)

/-- Does something to a scope; a declaration that is not refused gives its slot. -/
def act (s : Scope) : Action → Option UInt16 × Scope
  | .push => (none, s.push)
  | .pop => (none, s.pop)
  | .declare name ty => ((s.declare name ty).1.toOption, (s.declare name ty).2)

/-- Does one thing after the other, and gives the slots in the order in which they were handed out. -/
def run (s : Scope) : List Action → List UInt16 × Scope
  | [] => ([], s)
  | a :: as => ((s.act a).1.toList ++ ((s.act a).2.run as).1, ((s.act a).2.run as).2)

variable {s : Scope}

theorem run_append (s : Scope) (as bs : List Action) :
    s.run (as ++ bs) = ((s.run as).1 ++ ((s.run as).2.run bs).1, ((s.run as).2.run bs).2) := by
  induction as generalizing s with
  | nil => rfl
  | cons a as ih => simp only [List.cons_append, run, ih, List.append_assoc]

/-! ## One action -/

/-- An action hands out the first free slot or none, and only as many as there can be. -/
theorem act_cases (s : Scope) (a : Action) :
    ((s.act a).1 = none ∧ (s.act a).2.nextSlot = s.nextSlot) ∨
      (s.nextSlot < slotLimit ∧ (s.act a).1 = some s.nextSlot.toUInt16 ∧ (s.act a).2.nextSlot = s.nextSlot + 1) := by
  cases a with
  | push => exact .inl ⟨rfl, rfl⟩
  | pop => exact .inl ⟨rfl, rfl⟩
  | declare name ty =>
    rw [act]
    match hd : s.declare name ty with
    | (.error e, t) => exact .inl ⟨rfl, by rw [declare_eq_error hd]⟩
    | (.ok slot, t) =>
      obtain ⟨-, hslot, rfl⟩ := declare_eq_ok hd
      have hlt : s.nextSlot < slotLimit := by
        rw [← hslot]
        exact slot.toNat_lt
      refine .inr ⟨hlt, congrArg some (UInt16.toNat_inj.1 ?_), rfl⟩
      rw [hslot]
      exact (UInt16.toNat_ofNat_of_lt hlt).symm

/-! ## Runs -/

/-- A run hands out the free slots one after the other, and no more than there can be. -/
theorem slots_run (h : s.nextSlot ≤ slotLimit) (as : List Action) :
    (s.run as).1.map UInt16.toNat = List.range' s.nextSlot (s.run as).1.length ∧
      (s.run as).2.nextSlot = s.nextSlot + (s.run as).1.length ∧ (s.run as).2.nextSlot ≤ slotLimit := by
  induction as generalizing s with
  | nil => exact ⟨rfl, rfl, h⟩
  | cons a as ih =>
    rw [run]
    rcases s.act_cases a with ⟨hnone, hnext⟩ | ⟨hlt, hslot, hnext⟩
    · rw [hnone, ← hnext]
      exact ih (hnext ▸ h)
    · obtain ⟨hslots, hend, hle⟩ := ih (s := (s.act a).2) (by omega)
      rw [hslot]
      simp only [Option.toList_some, List.singleton_append, List.map_cons, List.length_cons]
      refine ⟨?_, by omega, hle⟩
      rw [hslots, hnext, List.range'_succ, show s.nextSlot.toUInt16.toNat = s.nextSlot from UInt16.toNat_ofNat_of_lt hlt]

theorem toNat_maxLocals (s : Scope) : s.maxLocals.toNat = min s.nextSlot 65535 :=
  UInt16.toNat_ofNat_of_lt (Nat.lt_of_le_of_lt (Nat.min_le_right ..) (by decide))

/-- Slots are handed out one after the other from the first behind the receiver, and each is below the number of slots that the
method needs, except slot 65535: the number that would be above it is too large. -/
theorem slot_lt_maxLocals_iff (h : s = ofStatic ∨ s = ofInstance) (as : List Action) :
    (s.run as).1.map UInt16.toNat = List.range' s.nextSlot (s.run as).1.length ∧
      ∀ slot ∈ (s.run as).1, slot < (s.run as).2.maxLocals ↔ slot ≠ 65535 := by
  have hstart : s.nextSlot ≤ slotLimit := by rcases h with rfl | rfl <;> decide
  obtain ⟨hslots, hend, hle⟩ := slots_run hstart as
  refine ⟨hslots, fun slot hslot => ?_⟩
  have hrange : slot.toNat ∈ List.range' s.nextSlot (s.run as).1.length := hslots ▸ List.mem_map_of_mem hslot
  have hlt : slot.toNat < (s.run as).2.nextSlot := by
    rw [List.mem_range'_1] at hrange
    omega
  rw [UInt16.lt_iff_toNat_lt, toNat_maxLocals, ne_eq, ← UInt16.toNat_inj, show (65535 : UInt16).toNat = 65535 from rfl]
  rw [slotLimit] at hle
  omega

/-- A parameter of an instance method, and two variables of the same name in blocks next to each other; a second declaration
of the parameter is refused. -/
theorem slot_lt_maxLocals_iff_siblings :
    (ofInstance = ofStatic ∨ ofInstance = ofInstance) ∧
      ∃ slots t, ofInstance.run [.declare "a" .int, .push, .declare "x" .long, .declare "a" .int, .pop, .push,
          .declare "x" .boolean, .pop] = (slots, t) ∧ slots = [1, 2, 3] ∧
        slots.map UInt16.toNat = List.range' 1 slots.length ∧ ∀ slot ∈ slots, slot < t.maxLocals ↔ slot ≠ 65535 := by
  obtain ⟨hslots, hlt⟩ := slot_lt_maxLocals_iff (.inr rfl) [.declare "a" .int, .push, .declare "x" .long, .declare "a" .int,
    .pop, .push, .declare "x" .boolean, .pop]
  refine ⟨.inr rfl, _, _, rfl, ?_, hslots, hlt⟩
  simp [run, act, declare, push, pop, ofInstance, slotLimit, Except.toOption, Std.HashMap.mem_filter]

/-! ## The last slot -/

/-- One variable in a block of its own. -/
def inBlock (name : String) (ty : Ty) : List Action := [.push, .declare name ty, .pop]

/-- A name that is not visible outside of a block can be declared in one, and is not visible after it. -/
theorem run_inBlock {name : String} (hnew : s.lookup? name = none) (ty : Ty) (h : s.nextSlot < slotLimit) :
    (s.run (inBlock name ty)).1 = [s.nextSlot.toUInt16] ∧ (s.run (inBlock name ty)).2.nextSlot = s.nextSlot + 1 ∧
      (s.run (inBlock name ty)).2.lookup? name = none := by
  have hd : s.push.declare name ty = (.ok s.nextSlot.toUInt16, (s.push.declare name ty).2) := by
    refine Prod.ext ?_ rfl
    rw [declare_fst, show s.push.lookup? name = none from hnew, Option.isSome_none, if_neg Bool.false_ne_true]
    exact if_pos h
  obtain ⟨-, -, hscope⟩ := declare_eq_ok hd
  refine ⟨?_, ?_, ?_⟩
  · simp only [inBlock, run, act]
    rw [hd]
    rfl
  · simp only [inBlock, run, act, pop]
    rw [hscope]
    rfl
  · simp only [inBlock, run, act]
    rw [lookup?_pop, lookup?_declare hd, if_pos rfl, hscope]
    simp [Option.filter]

/-- As many blocks with one variable each as there can be slots. -/
theorem run_blocks {name : String} (hnew : s.lookup? name = none) (ty : Ty) (n : Nat) (h : s.nextSlot + n ≤ slotLimit) :
    (s.run (List.replicate n (inBlock name ty)).flatten).1.length = n ∧
      (s.run (List.replicate n (inBlock name ty)).flatten).2.lookup? name = none := by
  induction n generalizing s with
  | zero => exact ⟨rfl, hnew⟩
  | succ n ih =>
    obtain ⟨hslot, hnext, hgone⟩ := run_inBlock hnew ty (by omega)
    obtain ⟨hlength, hlookup⟩ := ih hgone (by omega)
    rw [List.replicate_succ, List.flatten_cons, run_append]
    refine ⟨?_, hlookup⟩
    rw [hslot, List.length_append, hlength, List.length_singleton, Nat.add_comm]

/-- In a static method as well as in an instance method a slot can be handed out that is not below the number of slots. -/
theorem exists_slot_eq_maxLocals (h : s = ofStatic ∨ s = ofInstance) :
    ∃ as, ∃ slot ∈ (s.run as).1, slot = (s.run as).2.maxLocals := by
  have hlimit : s.nextSlot + (slotLimit - s.nextSlot) = slotLimit ∧ s.nextSlot < slotLimit := by
    rcases h with rfl | rfl <;> decide
  have hnew : s.lookup? "x" = none := by rcases h with rfl | rfl <;> simp [lookup?, ofStatic, ofInstance]
  obtain ⟨hlength, -⟩ := run_blocks hnew .int (slotLimit - s.nextSlot) (Nat.le_of_eq hlimit.1)
  refine ⟨(List.replicate (slotLimit - s.nextSlot) (inBlock "x" .int)).flatten, ?_⟩
  generalize (List.replicate (slotLimit - s.nextSlot) (inBlock "x" .int)).flatten = as at hlength ⊢
  obtain ⟨hslots, hend, -⟩ := slots_run (Nat.le_of_lt hlimit.2) as
  have hlast : 65535 ∈ (s.run as).1.map UInt16.toNat := by
    rw [hslots, hlength, List.mem_range'_1, hlimit.1]
    rw [slotLimit] at hlimit ⊢
    omega
  obtain ⟨slot, hslot, htoNat⟩ := List.mem_map.1 hlast
  refine ⟨slot, hslot, UInt16.toNat_inj.1 ?_⟩
  rw [htoNat, maxLocals, hend, hlength, hlimit.1]
  rfl

end ClassTree.Scope
