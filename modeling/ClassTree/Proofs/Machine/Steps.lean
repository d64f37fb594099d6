import ClassTree.Proofs.Code.Placed

/-!
# Runs of code that leave the machine alone

`Run.Steps k f g`: in `k` steps the machine comes from the frame `f` to the frame `g` of the same call, and nothing else
changes, whatever the machine is and whatever waits for the call. There is one rule for each instruction that moves values
alone. A run that ends does not depend on how many steps are allowed beyond those that it takes (`Run.drive_add`).
-/

namespace ClassTree

/-- The frame at another place of its code, with other values. -/
def Frame.move (f : Frame) (ip : Nat) (stack : List Value) (locals : Array Value) : Frame :=
  { f with ip, stack, locals }

theorem Frame.step_eq {f : Frame} {i : Instr} (h : Instr.at? f.code f.ip = some i) (render : Value → Run String) :
    f.step render = { f with ip := f.ip + i.size }.exec render i := by
  rw [Frame.step, Frame.fetch_eq_ok h]
  rfl

namespace Run

/-! ## Steps -/

/-- The machine comes from a frame to another in so many steps, and nothing else changes. -/
def Steps (k : Nat) (f g : Frame) : Prop :=
  ∀ render fuel callers m, drive unwatched render (k + fuel) f callers m = drive unwatched render fuel g callers m

theorem Steps.refl (f : Frame) : Steps 0 f f := by
  intro render fuel callers m
  rw [Nat.zero_add]

theorem Steps.trans {j k : Nat} {f g h : Frame} (hf : Steps j f g) (hg : Steps k g h) : Steps (j + k) f h := by
  intro render fuel callers m
  rw [Nat.add_assoc, hf, hg]

/-- A step of a run that nobody watches. -/
theorem drive_unwatched (render : Value → Run String) (fuel : Nat) (f : Frame) (callers : List Frame) :
    drive unwatched render (fuel + 1) f callers =
      (f.step render >>= fun control => match control with
        | .next f => drive unwatched render fuel f callers
        | .call caller callee => do
          changeDepth (· + 1)
          drive unwatched render fuel callee (caller :: callers)
        | .ret f v => do
          changeDepth (· - 1)
          let v ← ask (·.finish f.target.method v)
          match callers with
          | [] => return v
          | caller :: callers => drive unwatched render fuel (if f.keepResult then caller.push v else caller) callers) := rfl

theorem drive_succ (render : Value → Run String) (fuel : Nat) (f : Frame) (callers : List Frame) (m : Machine) :
    drive unwatched render (fuel + 1) f callers m =
      match f.step render m with
      | .ok (.next g) m => drive unwatched render fuel g callers m
      | .ok (.call caller callee) m =>
        drive unwatched render fuel callee (caller :: callers) { m with depth := m.depth + 1 }
      | .ok (.ret g v) m =>
        let m : Machine := { m with depth := m.depth - 1 }
        match m.heap.finish g.target.method v, callers with
        | .ok v, [] => .ok v m
        | .ok v, caller :: callers => drive unwatched render fuel (if g.keepResult then caller.push v else caller) callers m
        | .error e, _ => .error (.failure e) m
      | .error e m => .error e m := by
  rw [drive_unwatched]
  change EStateM.bind _ _ m = _
  unfold EStateM.bind
  cases hstep : f.step render m with
  | error e m' => rfl
  | ok control m' =>
    cases control with
    | next g => rfl
    | call caller callee => rfl
    | ret g v =>
      change (EStateM.bind (ofExcept _) _ _ : EStateM.Result _ _ _) = _
      unfold EStateM.bind
      dsimp only
      cases hfinish : m'.heap.finish g.target.method v with
      | error e => rfl
      | ok v' => cases callers <;> rfl

theorem Steps.of_step {f g : Frame} (h : ∀ render m, f.step render m = .ok (.next g) m) : Steps 1 f g := by
  intro render fuel callers m
  rw [Nat.add_comm, drive_succ, h]

/-- The rule for an instruction in place. -/
theorem Steps.exec {f : Frame} {i : Instr} {o o' : Nat} {stack stack' : List Value} {locals locals' : Array Value}
    (hat : Instr.at? f.code o = some i)
    (h : ∀ render m, (f.move (o + i.size) stack locals).exec render i m = .ok (.next (f.move o' stack' locals')) m) :
    Steps 1 (f.move o stack locals) (f.move o' stack' locals') := by
  refine .of_step fun render m => ?_
  rw [Frame.step_eq (f := f.move o stack locals) hat]
  exact h render m

/-- A run that ends within a number of steps ends in the same way if more are allowed. -/
theorem drive_add {render : Value → Run String} {fuel : Nat} {f : Frame} {callers : List Frame} {m : Machine}
    (h : ∀ m', drive unwatched render fuel f callers m ≠ .error .outOfFuel m') (k : Nat) :
    drive unwatched render (fuel + k) f callers m = drive unwatched render fuel f callers m := by
  induction fuel generalizing f callers m with
  | zero => exact absurd rfl (h m)
  | succ fuel ih =>
    rw [drive_succ] at h
    rw [show fuel + 1 + k = fuel + k + 1 by omega, drive_succ, drive_succ]
    cases hstep : f.step render m with
    | error e m' => rfl
    | ok control m' =>
      simp only [hstep] at h
      cases control with
      | next g => exact ih h
      | call caller callee => exact ih h
      | ret g v =>
        dsimp only at h ⊢
        cases hfinish : m'.heap.finish g.target.method v with
        | error e => rfl
        | ok v' =>
          simp only [hfinish] at h
          cases callers with
          | nil => rfl
          | cons caller callers => exact ih h

end Run

/-! ## Instructions -/

namespace Run

variable {f : Frame} {o : Nat} {stack : List Value} {locals : Array Value}

theorem ask_eq_ok {α : Type} {ask : Heap → Except RuntimeError α} {a : α} {m : Machine} (h : ask m.heap = .ok a) :
    Run.ask ask m = .ok a m := by
  change Run.ofExcept (ask m.heap) m = _
  rw [h]
  rfl

theorem ask_eq_error {α : Type} {ask : Heap → Except RuntimeError α} {e : RuntimeError} {m : Machine}
    (h : ask m.heap = .error e) : Run.ask ask m = .error (.failure e) m := by
  change Run.ofExcept (ask m.heap) m = _
  rw [h]
  rfl

theorem Steps.push {k : Immediate} (hat : Instr.at? f.code o = some (.push k)) :
    Steps 1 (f.move o stack locals) (f.move (o + (Instr.push k).size) (k.value :: stack) locals) :=
  .exec hat fun _ _ => rfl

theorem Steps.ldc {i : UInt16} {v : Value} (hat : Instr.at? f.code o = some (.ldc i))
    (h : ∀ o stack locals, (f.move o stack locals).constant i = .ok v) :
    Steps 1 (f.move o stack locals) (f.move (o + (Instr.ldc i).size) (v :: stack) locals) := by
  refine .exec hat fun _ m => ?_
  rw [Frame.exec, h]
  rfl

theorem Steps.pop {v : Value} (hat : Instr.at? f.code o = some .pop) :
    Steps 1 (f.move o (v :: stack) locals) (f.move (o + Instr.pop.size) stack locals) :=
  .exec hat fun _ _ => rfl

theorem Steps.dup {v : Value} (hat : Instr.at? f.code o = some .dup) :
    Steps 1 (f.move o (v :: stack) locals) (f.move (o + Instr.dup.size) (v :: v :: stack) locals) :=
  .exec hat fun _ _ => rfl

theorem Steps.load {slot : UInt16} {v : Value} (hat : Instr.at? f.code o = some (.load slot))
    (h : locals[slot.toNat]? = some v) :
    Steps 1 (f.move o stack locals) (f.move (o + (Instr.load slot).size) (v :: stack) locals) := by
  refine .exec hat fun _ m => ?_
  simp only [Frame.exec, Frame.move, h]
  rfl

theorem Steps.store {slot : UInt16} {v : Value} (hat : Instr.at? f.code o = some (.store slot))
    (h : slot.toNat < locals.size) :
    Steps 1 (f.move o (v :: stack) locals)
      (f.move (o + (Instr.store slot).size) stack (locals.setIfInBounds slot.toNat v)) := by
  refine .exec hat fun _ m => ?_
  have hlt : slot.toNat < (f.move (o + (Instr.store slot).size) (v :: stack) locals).locals.size := h
  rw [Frame.exec]
  change (if _ then _ else _ : Run Control) m = _
  rw [if_pos hlt]
  rfl

/-- The rule for an instruction that replaces the topmost value. -/
theorem Steps.unary {i : Instr} {op : Heap → Value → Except RuntimeError Value} {v w : Value}
    (hat : Instr.at? f.code o = some i) (hi : ∀ (g : Frame) (render : Value → Run String), g.exec render i = g.unary op)
    (h : ∀ heap, op heap v = .ok w) :
    Steps 1 (f.move o (v :: stack) locals) (f.move (o + i.size) (w :: stack) locals) := by
  refine .exec hat fun render m => ?_
  rw [hi]
  change (Run.ask (op · v) >>= _) m = _
  change EStateM.bind _ _ m = _
  rw [EStateM.bind, ask_eq_ok (h m.heap)]
  rfl

/-- The rule for an instruction that replaces the two topmost values. -/
theorem Steps.binary {i : Instr} {op : (Value → Run String) → Value → Value → Run Value} {a b w : Value}
    (hat : Instr.at? f.code o = some i)
    (hi : ∀ (g : Frame) (render : Value → Run String), g.exec render i = g.binary (op render))
    (h : ∀ render m, op render a b m = .ok w m) :
    Steps 1 (f.move o (b :: a :: stack) locals) (f.move (o + i.size) (w :: stack) locals) := by
  refine .exec hat fun render m => ?_
  rw [hi]
  change EStateM.bind (op render a b) _ m = _
  rw [EStateM.bind, h]
  rfl

theorem Steps.jump {w : UInt16} (hat : Instr.at? f.code o = some (.jump w)) :
    Steps 1 (f.move o stack locals) (f.move (o + Block.jumpSize + w.toNat) stack locals) :=
  .exec hat fun _ _ => rfl

/-- A jump that depends on a truth value goes on behind it, or leads over what it was made for. -/
theorem Steps.jumpIfFalse {w : UInt16} {b : Bool} (hat : Instr.at? f.code o = some (.jumpIfFalse w)) :
    Steps 1 (f.move o (.bool b :: stack) locals)
      (f.move (if b then o + Block.jumpSize else o + Block.jumpSize + w.toNat) stack locals) := by
  refine .exec hat fun _ m => ?_
  cases b <;> rfl

theorem Steps.loop {w : UInt16} (hat : Instr.at? f.code o = some (.loop w)) (h : w.toNat ≤ o + Block.jumpSize) :
    Steps 1 (f.move o stack locals) (f.move (o + Block.jumpSize - w.toNat) stack locals) := by
  refine .exec hat fun _ m => ?_
  have hle : w.toNat ≤ (f.move (o + (Instr.loop w).size) stack locals).ip := h
  rw [Frame.exec, if_pos hle]
  rfl

end Run

/-- What an instruction does with its two operands. -/
def Instr.operator (render : Value → Run String) : Instr → Value → Value → Run Value
  | .arith op, a, b => arithmetic render op a b
  | .compare op, a, b => Run.ask (·.compare op a b)
  | _, a, b => ClassTree.concat render a b

/-- Whether an instruction replaces two operands by its result. -/
def Instr.isOperator : Instr → Bool
  | .arith _ | .compare _ | .concat => true
  | _ => false

theorem Instr.exec_operator {i : Instr} (h : i.isOperator = true) (g : Frame) (render : Value → Run String) :
    g.exec render i = g.binary (i.operator render) := by
  cases i <;> first | rfl | cases h

/-! ## Ends of runs -/

namespace Run

variable {f : Frame} {o : Nat} {stack : List Value} {locals : Array Value}

/-- After so many steps the run ends with a failure. -/
def Fails (k : Nat) (f : Frame) (e : RuntimeError) : Prop :=
  ∀ render fuel callers m, drive unwatched render (k + fuel) f callers m = .error (.failure e) m

theorem Fails.of_steps {j k : Nat} {f g : Frame} {e : RuntimeError} (hf : Steps j f g) (hg : Fails k g e) :
    Fails (j + k) f e := by
  intro render fuel callers m
  rw [Nat.add_assoc, hf, hg]

theorem Fails.binary {i : Instr} {op : (Value → Run String) → Value → Value → Run Value} {a b : Value}
    {e : RuntimeError} (hat : Instr.at? f.code o = some i)
    (hi : ∀ (g : Frame) (render : Value → Run String), g.exec render i = g.binary (op render))
    (h : ∀ render m, op render a b m = .error (.failure e) m) : Fails 1 (f.move o (b :: a :: stack) locals) e := by
  intro render fuel callers m
  have hstep : (f.move o (b :: a :: stack) locals).step render m = .error (.failure e) m := by
    rw [Frame.step_eq (f := f.move o (b :: a :: stack) locals) hat, hi]
    change EStateM.bind (op render a b) _ m = _
    rw [EStateM.bind, h]
  rw [Nat.add_comm, drive_succ, hstep]

/-- The next step of the frame returns a value. -/
def Returning (f : Frame) (v : Value) : Prop := Instr.at? f.code f.ip = some .ret ∧ ∃ stack, f.stack = v :: stack

/-- A call from outside ends with the result of the method. -/
theorem Returning.drive {v : Value} (h : Returning f v) (render : Value → Run String) (fuel : Nat) (m : Machine) :
    drive unwatched render (1 + fuel) f [] m =
      match m.heap.finish f.target.method (some v) with
      | .ok v => .ok v { m with depth := m.depth - 1 }
      | .error e => .error (.failure e) { m with depth := m.depth - 1 } := by
  obtain ⟨hat, stack, hstack⟩ := h
  have hstep : f.step render m =
      .ok (.ret { f with ip := f.ip + Instr.ret.size, stack } (some v)) m := by
    rw [Frame.step_eq hat, Frame.exec, Frame.pop]
    simp only [hstack]
    rfl
  rw [Nat.add_comm, drive_succ, hstep]
  dsimp only
  cases m.heap.finish f.target.method (some v) <;> rfl

end Run

/-! ## Blocks in the code of a frame -/

/-- The local slot that an instruction names. -/
def Instr.slot? : Instr → Option UInt16
  | .load slot | .store slot => some slot
  | _ => none

namespace Block

/-- The block stands in the code of a frame, its jumps reach, and the frame has all slots that it names. -/
structure In (b : Block) (f : Frame) (o : Nat) : Prop where
  placed : b.At f.code o
  reaches : b.overflowed = false
  slots : ∀ i ∈ b.instrs, ∀ slot, i.slot? = some slot → slot.toNat < f.locals.size

variable {a b c : Block} {f : Frame} {o : Nat} {i : Instr}

theorem In.append (h : (a ++ b).In f o) : a.In f o ∧ b.In f (o + a.size) := by
  obtain ⟨ha, hb⟩ := h.placed.append
  have hover := h.reaches
  rw [overflowed_append, Bool.or_eq_false_iff] at hover
  have hslots : ∀ i ∈ a.instrs ++ b.instrs, ∀ slot, i.slot? = some slot → slot.toNat < f.locals.size := h.slots
  refine ⟨⟨ha, hover.1, fun i hi => ?_⟩, ⟨hb, hover.2, fun i hi => ?_⟩⟩
  · exact hslots i (Array.mem_append.2 (.inl hi))
  · exact hslots i (Array.mem_append.2 (.inr hi))

theorem In.one (h : (one i).In f o) : Instr.at? f.code o = some i := h.placed.one

theorem In.slot {slot : UInt16} (h : (Block.one i).In f o) (hi : i.slot? = some slot) : slot.toNat < f.locals.size :=
  h.slots i (by simp [Block.one]) slot hi

theorem In.jumpBy {jump : UInt16 → Instr} {n : Nat} (h : (jumpBy jump n).In f o) :
    ∃ w : UInt16, w.toNat = n ∧ Instr.at? f.code o = some (jump w) := h.placed.jumpBy h.reaches

theorem In.ifThen (h : (ifThen a b).In f o) :
    a.In f o ∧ b.In f (o + a.size + jumpSize) ∧
      ∃ w : UInt16, w.toNat = b.size ∧ Instr.at? f.code (o + a.size) = some (.jumpIfFalse w) := by
  obtain ⟨h, hb⟩ := In.append h
  obtain ⟨ha, hj⟩ := In.append h
  rw [size_append, size_jumpIfFalse, ← Nat.add_assoc] at hb
  exact ⟨ha, hb, hj.jumpBy⟩

theorem In.ifElse (h : (ifElse a b c).In f o) :
    a.In f o ∧ b.In f (o + a.size + jumpSize) ∧ c.In f (o + a.size + jumpSize + b.size + jumpSize) ∧
      (∃ w : UInt16, w.toNat = b.size + jumpSize ∧ Instr.at? f.code (o + a.size) = some (.jumpIfFalse w)) ∧
      ∃ w : UInt16, w.toNat = c.size ∧ Instr.at? f.code (o + a.size + jumpSize + b.size) = some (.jump w) := by
  obtain ⟨h, hc⟩ := In.append h
  obtain ⟨h, hover⟩ := In.append h
  obtain ⟨h, hb⟩ := In.append h
  obtain ⟨ha, hskip⟩ := In.append h
  simp only [size_append, size_jumpIfFalse, size_jump, ← Nat.add_assoc] at hc hover hb
  exact ⟨ha, hb, hc, hskip.jumpBy, hover.jumpBy⟩

theorem In.repeatWhile (h : (repeatWhile a b).In f o) :
    a.In f o ∧ b.In f (o + a.size + jumpSize) ∧
      (∃ w : UInt16, w.toNat = b.size + jumpSize ∧ Instr.at? f.code (o + a.size) = some (.jumpIfFalse w)) ∧
      ∃ w : UInt16, w.toNat = a.size + jumpSize + b.size + jumpSize ∧
        Instr.at? f.code (o + a.size + jumpSize + b.size) = some (.loop w) := by
  obtain ⟨h, hback⟩ := In.append h
  obtain ⟨h, hb⟩ := In.append h
  obtain ⟨ha, hskip⟩ := In.append h
  simp only [size_append, size_jumpIfFalse, ← Nat.add_assoc] at hback hb
  exact ⟨ha, hb, hskip.jumpBy, hback.jumpBy⟩

end Block

end ClassTree
