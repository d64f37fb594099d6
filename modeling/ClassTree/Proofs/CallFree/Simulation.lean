import ClassTree.Proofs.CallFree.Semantics
import ClassTree.Proofs.Scalar.Expressions

/-!
# Code does what an evaluation says

`Run.Does render n f m x Q`: begun at the frame `f` with the machine `m`, the run does what the computation `x` does: where
`x` has a result, the run comes to a frame with `Q`, and the machine is the same; where `x` fails, so does the run; and where
`x` lacks fuel, `n` steps do not suffice.

`Computes cs render code x`: wherever the block `code` stands, it does what `x` does with the local slots and leaves the value
on the stack. `Performs cs render n code x` says the same of statements, whose code may leave anything on the stack. There is
one rule for each way in which code is put together.
-/

namespace ClassTree

open Run

namespace Run

/-- In so many steps the run comes from a frame to another of the same call. -/
def Reaches (render : Value → Run String) (k : Nat) (f : Frame) (m : Machine) (g : Frame) (m' : Machine) : Prop :=
  ∀ fuel callers, drive unwatched render (k + fuel) f callers m = drive unwatched render fuel g callers m'

/-- So many steps do not suffice. -/
def Starves (render : Value → Run String) (n : Nat) (f : Frame) (m : Machine) : Prop :=
  ∀ fuel ≤ n, ∀ callers, ∃ m', drive unwatched render fuel f callers m = .error .outOfFuel m'

/-- The run does what the computation does. -/
def Does {α : Type} (render : Value → Run String) (n : Nat) (f : Frame) (m : Machine) (x : Run α) (Q : α → Frame → Prop) :
    Prop :=
  match x m with
  | .ok a m' => ∃ k g, Reaches render k f m g m' ∧ Q a g
  | .error (.failure e) m' => ∃ k, ∀ fuel callers, drive unwatched render (k + fuel) f callers m = .error (.failure e) m'
  | .error .outOfFuel _ => Starves render n f m

variable {render : Value → Run String} {n k : Nat} {f g : Frame} {m m' : Machine}

theorem Steps.reaches (h : Steps k f g) (render : Value → Run String) (m : Machine) : Reaches render k f m g m :=
  fun fuel callers => h render fuel callers m

theorem Starves.of_reaches (hk : Reaches render k f m g m') (h : Starves render n g m') : Starves render (k + n) f m := by
  intro fuel hle callers
  rcases Nat.lt_or_ge fuel k with hlt | hge
  · -- A run that ended before it came to `g` would end there too.
    by_contra hne
    simp only [not_exists] at hne
    have hend := drive_add hne (k - fuel)
    rw [show fuel + (k - fuel) = k + 0 by omega, hk] at hend
    exact hne m' hend.symm
  · obtain ⟨j, rfl⟩ : ∃ j, fuel = k + j := ⟨fuel - k, by omega⟩
    rw [hk]
    exact h j (by omega) callers

theorem Starves.of_le {j : Nat} (hj : j ≤ n) (h : Starves render n f m) : Starves render j f m :=
  fun fuel hle => h fuel (Nat.le_trans hle hj)

namespace Does

variable {α β : Type} {x : Run α} {Q Q' : α → Frame → Prop} {R : β → Frame → Prop}

theorem pure {a : α} (h : Q a f) : Does render n f m (Pure.pure a) Q :=
  ⟨0, f, (Steps.refl f).reaches render m, h⟩

theorem of_le {j : Nat} (hj : j ≤ n) (h : Does render n f m x Q) : Does render j f m x Q := by
  unfold Does at h ⊢
  split
  · simpa only [*] using h
  · simpa only [*] using h
  · rename_i heq
    rw [heq] at h
    exact Starves.of_le hj h

/-- The run may take steps first. -/
theorem of_steps (hk : Steps k f g) (h : Does render n g m x Q) : Does render (k + n) f m x Q := by
  unfold Does at h ⊢
  cases hx : x m with
  | ok a m' =>
    rw [hx] at h
    obtain ⟨j, g', hj, hQ⟩ := h
    refine ⟨k + j, g', fun fuel callers => ?_, hQ⟩
    rw [Nat.add_assoc, hk, hj]
  | error e m' =>
    rw [hx] at h
    cases e with
    | failure e =>
      obtain ⟨j, hj⟩ := h
      refine ⟨k + j, fun fuel callers => ?_⟩
      rw [Nat.add_assoc, hk, hj]
    | outOfFuel => exact Starves.of_reaches (hk.reaches render m) h

theorem step (hk : Steps k f g) (h : Does render n g m x Q) : Does render n f m x Q :=
  (of_steps hk h).of_le (Nat.le_add_left n k)

theorem bind {y : α → Run β} (hx : Does render n f m x Q) (hy : ∀ a g m', Q a g → Does render n g m' (y a) R) :
    Does render n f m (x >>= y) R := by
  have hbind : (x >>= y) m = EStateM.bind x y m := rfl
  unfold Does at hx ⊢
  rw [hbind, EStateM.bind]
  cases hxm : x m with
  | error e m' =>
    rw [hxm] at hx
    cases e <;> exact hx
  | ok a m' =>
    rw [hxm] at hx
    obtain ⟨k, g, hk, hQ⟩ := hx
    have hrest := hy a g m' hQ
    unfold Does at hrest
    dsimp only
    cases hym : y a m' with
    | ok b m'' =>
      rw [hym] at hrest
      obtain ⟨j, g', hj, hR⟩ := hrest
      refine ⟨k + j, g', fun fuel callers => ?_, hR⟩
      rw [Nat.add_assoc, hk, hj]
    | error e m'' =>
      rw [hym] at hrest
      cases e with
      | failure e =>
        obtain ⟨j, hj⟩ := hrest
        refine ⟨k + j, fun fuel callers => ?_⟩
        rw [Nat.add_assoc, hk, hj]
      | outOfFuel => exact (Starves.of_reaches hk hrest).of_le (Nat.le_add_left n k)

/-- Where the computation has a result, the run may take further steps. -/
theorem followed (hx : Does render n f m x Q) (h : ∀ a g, Q a g → ∃ k g', Steps k g g' ∧ Q' a g') :
    Does render n f m x Q' := by
  have hpure : ∀ a g m', Q a g → Does render n g m' (Pure.pure a) Q' := by
    intro a g m' hQ
    obtain ⟨k, g', hk, hQ'⟩ := h a g hQ
    exact step hk (pure hQ')
  have hall := bind hx hpure
  rwa [bind_pure] at hall

/-- The rule for a step that does a computation. -/
theorem of_step {next : α → Frame} (h : f.step render m = (x >>= fun a => Pure.pure (Control.next (next a))) m) :
    Does render n f m x fun a g => g = next a := by
  have hbind : (x >>= fun a => Pure.pure (Control.next (next a))) m =
      EStateM.bind x (fun a => Pure.pure (Control.next (next a))) m := rfl
  rw [hbind, EStateM.bind] at h
  unfold Does
  cases hx : x m with
  | ok a m' =>
    rw [hx] at h
    refine ⟨1, next a, fun fuel callers => ?_, rfl⟩
    rw [Nat.add_comm, drive_succ, h]
    rfl
  | error e m' =>
    rw [hx] at h
    cases e with
    | failure e =>
      refine ⟨1, fun fuel callers => ?_⟩
      rw [Nat.add_comm, drive_succ, h]
    | outOfFuel =>
      intro fuel _ callers
      cases fuel with
      | zero => exact ⟨m, rfl⟩
      | succ fuel => exact ⟨m', by rw [drive_succ, h]⟩

/-- The rule for an instruction in place that does a computation. -/
theorem exec {i : Instr} {o : Nat} {stack : List Value} {locals : Array Value} (next : α → Frame)
    (hat : Instr.at? f.code o = some i)
    (h : (f.move (o + i.size) stack locals).exec render i m = (x >>= fun a => Pure.pure (Control.next (next a))) m) :
    Does render n (f.move o stack locals) m x fun a g => g = next a := by
  refine of_step ?_
  rw [Frame.step_eq (f := f.move o stack locals) hat]
  exact h

end Does

end Run

/-! ## Frames -/

/-- The frame stands at an offset with a stack, and its slots hold the values. -/
def Frame.Stands (f : Frame) (o : Nat) (stack : List Value) (slots : Slots) (g : Frame) : Prop :=
  ∃ locals, g = f.move o stack locals ∧ locals.size = f.locals.size ∧ ∀ i < locals.size, locals[i]? = some (slots i)

namespace Frame.Stands

variable {render : Value → Run String} {n o : Nat} {f g : Frame} {m : Machine} {stack : List Value} {slots : Slots}

/-- The rule for an instruction that pushes a value. -/
theorem push {i : Instr} {v : Value} (h : f.Stands o stack slots g)
    (hi : ∀ locals, Steps 1 (f.move o stack locals) (f.move (o + i.size) (v :: stack) locals)) :
    ∃ g', Steps 1 g g' ∧ f.Stands (o + i.size) (v :: stack) slots g' := by
  obtain ⟨locals, rfl, hsize, hslots⟩ := h
  exact ⟨_, hi locals, locals, rfl, hsize, hslots⟩

theorem load {slot : UInt16} (h : f.Stands o stack slots g) (hin : (Block.one (.load slot)).In f o) :
    ∃ g', Steps 1 g g' ∧ f.Stands (o + (Instr.load slot).size) (slots slot.toNat :: stack) slots g' := by
  obtain ⟨locals, rfl, hsize, hslots⟩ := h
  have hlt : slot.toNat < locals.size := by
    rw [hsize]
    exact hin.slot rfl
  exact ⟨_, .load hin.one (hslots _ hlt), locals, rfl, hsize, hslots⟩

theorem store {slot : UInt16} {v : Value} (h : f.Stands o (v :: stack) slots g)
    (hin : (Block.one (.store slot)).In f o) :
    ∃ g', Steps 1 g g' ∧ f.Stands (o + (Instr.store slot).size) stack (Function.update slots slot.toNat v) g' := by
  obtain ⟨locals, rfl, hsize, hslots⟩ := h
  have hlt : slot.toNat < locals.size := by
    rw [hsize]
    exact hin.slot rfl
  refine ⟨_, .store hin.one hlt, _, rfl, by rw [Array.size_setIfInBounds, hsize], fun i hi => ?_⟩
  rw [Array.size_setIfInBounds] at hi
  by_cases heq : i = slot.toNat
  · rw [heq, Array.getElem?_setIfInBounds_self_of_lt hlt, Function.update_self]
  · rw [Array.getElem?_setIfInBounds_ne (Ne.symm heq), Function.update_of_ne heq, hslots i hi]

/-- The rule for an instruction that replaces the topmost value. -/
theorem unary {i : Instr} {op : Heap → Value → Except RuntimeError Value} {v : Value}
    (h : f.Stands o (v :: stack) slots g) (hat : Instr.at? f.code o = some i)
    (hi : ∀ (g : Frame) (render : Value → Run String), g.exec render i = g.unary op) :
    Does render n g m (Run.ask (op · v)) fun w => f.Stands (o + i.size) (w :: stack) slots := by
  obtain ⟨locals, rfl, hlocals⟩ := h
  refine (Does.exec (fun w => f.move (o + i.size) (w :: stack) locals) hat ?_).followed ?_
  · rw [hi]
    rfl
  · rintro w g rfl
    exact ⟨0, _, .refl _, locals, rfl, hlocals⟩

/-- The rule for an instruction that replaces the two topmost values. -/
theorem operator {i : Instr} {a b : Value} (h : f.Stands o (b :: a :: stack) slots g)
    (hat : Instr.at? f.code o = some i) (hi : i.isOperator = true) :
    Does render n g m (i.operator render a b) fun w => f.Stands (o + i.size) (w :: stack) slots := by
  obtain ⟨locals, rfl, hlocals⟩ := h
  refine (Does.exec (fun w => f.move (o + i.size) (w :: stack) locals) hat ?_).followed ?_
  · rw [Instr.exec_operator hi]
    rfl
  · rintro w g rfl
    exact ⟨0, _, .refl _, locals, rfl, hlocals⟩

/-- The rule for a jump that depends on the truth of the topmost value. -/
theorem jumpIfFalse {w : UInt16} {v : Value} (h : f.Stands o (v :: stack) slots g)
    (hat : Instr.at? f.code o = some (.jumpIfFalse w)) :
    Does render n g m (Run.ask (·.truth v)) fun (b : Bool) =>
      f.Stands (if b then o + Block.jumpSize else o + Block.jumpSize + w.toNat) stack slots := by
  obtain ⟨locals, rfl, hlocals⟩ := h
  refine (Does.exec (fun b : Bool =>
    f.move (if b then o + Block.jumpSize else o + Block.jumpSize + w.toNat) stack locals) hat ?_).followed ?_
  · change EStateM.bind (Run.ask (·.truth v)) _ m = EStateM.bind _ _ m
    unfold EStateM.bind
    cases Run.ask (·.truth v) m with
    | error e m' => rfl
    | ok b m' => cases b <;> rfl
  · rintro b g rfl
    exact ⟨0, _, .refl _, locals, rfl, hlocals⟩

end Frame.Stands

/-! ## Expressions -/

/-- The code does what the computation does with the local slots and leaves the value. -/
def Computes (cs : Constants) (render : Value → Run String) (code : Block) (x : Slots → Run (Value × Slots)) : Prop :=
  ∀ (f : Frame) (o : Nat) (stack : List Value) (slots : Slots) (g : Frame) (m : Machine) (n : Nat), f.constants = cs →
    code.In f o → f.Stands o stack slots g →
    Does render n g m (x slots) fun r => f.Stands (o + code.size) (r.1 :: stack) r.2

namespace Computes

variable {cs : Constants} {render : Value → Run String} {code left right : Block} {t : Ty}
  {x y : Slots → Run (Value × Slots)}

/-- The rule for an instruction that pushes a value. -/
theorem one {i : Instr} {v : Value}
    (hi : ∀ (f : Frame) (o : Nat) (stack : List Value) (locals : Array Value), f.constants = cs →
      Instr.at? f.code o = some i → Steps 1 (f.move o stack locals) (f.move (o + i.size) (v :: stack) locals)) :
    Computes cs render (.one i) fun slots => pure (v, slots) := by
  intro f o stack slots g m n hcs hin hg
  obtain ⟨g', hstep, hg'⟩ := hg.push fun locals => hi f o stack locals hcs hin.one
  rw [Block.size_one]
  exact .step hstep (.pure hg')

theorem pushBool (b : Bool) : Computes cs render (ClassTree.pushBool b) fun slots => pure (.bool b, slots) := by
  refine one (v := .bool b) fun f o stack locals _ hat => ?_
  cases b <;> exact .push hat

/-- The rule for reading a slot. -/
theorem load (slot : UInt16) : Computes cs render (.one (.load slot)) fun slots => pure (slots slot.toNat, slots) := by
  intro f o stack slots g m n hcs hin hg
  obtain ⟨g', hstep, hg'⟩ := hg.load hin
  rw [Block.size_one]
  exact .step hstep (.pure hg')

/-- The rule for an instruction that replaces the value of some code. -/
theorem unary {i : Instr} {op : Heap → Value → Except RuntimeError Value} (h : Computes cs render code x)
    (hi : ∀ (g : Frame) (render : Value → Run String), g.exec render i = g.unary op) :
    Computes cs render (code ++ .one i) fun slots => do
      let (v, slots) ← x slots
      return (← Run.ask (op · v), slots) := by
  intro f o stack slots g m n hcs hin hg
  obtain ⟨hcode, hop⟩ := hin.append
  refine .bind (h f o stack slots g m n hcs hcode hg) ?_
  rintro ⟨v, slots⟩ g m hg
  refine .bind (hg.unary hop.one hi) ?_
  rintro w g m hg
  rw [Block.size_append, Block.size_one, ← Nat.add_assoc]
  exact .pure hg

theorem bind_pure_pair {α β : Type} (x : Run (α × β)) : (do
    let (a, b) ← x
    return (a, b)) = x := bind_pure x

/-- The rule for a value that is widened to the type that is expected. -/
theorem widenTo (expected : Ty) (h : Computes cs render code x) :
    Computes cs render (ClassTree.widenTo expected (code, t)) fun slots => do
      let (v, slots) ← x slots
      return (← v.widen expected t, slots) := by
  unfold Value.widen
  cases hw : Widening.between? t expected with
  | none =>
    rw [widenTo_of_none hw]
    simpa only [pure_bind, bind_pure_pair] using h
  | some w =>
    rw [widenTo_of_some hw]
    exact h.unary fun _ _ => rfl

/-- The rule for an operand. -/
theorem operand (bt : BinaryTyping) (h : Computes cs render code x) :
    Computes cs render (operandCode bt.operand code t) fun slots => do
      let (v, slots) ← x slots
      return (← bt.widen t v, slots) := by
  unfold operandCode BinaryTyping.widen
  cases bt.operand with
  | none => simpa only [pure_bind, bind_pure_pair] using h
  | some target => exact h.widenTo target

/-- The rule for an operator that evaluates both operands. -/
theorem operator {i : Instr} (hi : i.isOperator = true) (hl : Computes cs render left x)
    (hr : Computes cs render right y) : Computes cs render (left ++ right ++ .one i) fun slots => do
      let (a, slots) ← x slots
      let (b, slots) ← y slots
      return (← i.operator render a b, slots) := by
  intro f o stack slots g m n hcs hin hg
  obtain ⟨hboth, hop⟩ := hin.append
  obtain ⟨hleft, hright⟩ := hboth.append
  refine .bind (hl f o stack slots g m n hcs hleft hg) ?_
  rintro ⟨a, slots⟩ g m hg
  refine .bind (hr f _ (a :: stack) slots g m n hcs hright hg) ?_
  rintro ⟨b, slots⟩ g m hg
  have hat := hop.one
  rw [Block.size_append, ← Nat.add_assoc] at hat
  refine .bind (hg.operator hat hi) ?_
  rintro w g m hg
  rw [Block.size_append, Block.size_append, Block.size_one, ← Nat.add_assoc, ← Nat.add_assoc]
  exact .pure hg

/-- The rule for storing a value in a slot and keeping it. -/
theorem storing (slot : UInt16) (h : Computes cs render code x) :
    Computes cs render (Evaluates.storing true code slot) fun slots => do
      let (v, slots) ← x slots
      return (v, Function.update slots slot.toNat v) := by
  intro f o stack slots g m n hcs hin hg
  obtain ⟨hfirst, hstore⟩ := hin.append
  obtain ⟨hcode, hdup⟩ := hfirst.append
  refine .bind (h f o stack slots g m n hcs hcode hg) ?_
  rintro ⟨v, slots⟩ g m ⟨locals, rfl, hlocals⟩
  have hboth : f.Stands (o + (code ++ Block.one .dup).size) (v :: v :: stack) slots
      (f.move (o + (code ++ Block.one .dup).size) (v :: v :: stack) locals) := ⟨locals, rfl, hlocals⟩
  obtain ⟨g', hstep, hg'⟩ := hboth.store hstore
  rw [Block.size_append, Block.size_one, ← Nat.add_assoc] at hstep
  rw [Evaluates.storing, if_pos rfl, Block.size_append, Block.size_one, ← Nat.add_assoc]
  exact .step (.dup hdup.one) (.step hstep (.pure hg'))

/-- The rule for a condition: what follows it depends on its truth. -/
theorem condition {α : Type} {y : Bool → Slots → Run α} {Q : α → Frame → Prop} (h : Computes cs render code x)
    {f : Frame} {o : Nat} {stack : List Value} {slots : Slots} {g : Frame} {m : Machine} {n : Nat} {w : UInt16}
    (hcs : f.constants = cs) (hin : code.In f o) (hg : f.Stands o stack slots g)
    (hskip : Instr.at? f.code (o + code.size) = some (.jumpIfFalse w))
    (hy : ∀ b slots g m, f.Stands (if b then o + code.size + Block.jumpSize
      else o + code.size + Block.jumpSize + w.toNat) stack slots g → Does render n g m (y b slots) Q) :
    Does render n g m (do
      let (v, slots) ← x slots
      let b ← Run.ask (·.truth v)
      y b slots) Q := by
  refine .bind (h f o stack slots g m n hcs hin hg) ?_
  rintro ⟨v, slots⟩ g m hg
  exact .bind (hg.jumpIfFalse hskip) fun b g m hg => hy b slots g m hg

/-- The rule for code that depends on a condition. -/
theorem ifElse {yes no : Block} {u v : Slots → Run (Value × Slots)} (hl : Computes cs render left x)
    (hyes : Computes cs render yes u) (hno : Computes cs render no v) :
    Computes cs render (.ifElse left yes no) (fun slots => do
      let (a, slots) ← x slots
      let b ← Run.ask (·.truth a)
      if b then u slots else v slots) := by
  intro f o stack slots g m n hcs hin hg
  obtain ⟨hcode, hyesIn, hnoIn, ⟨w, hw, hskip⟩, w', hw', hover⟩ := hin.ifElse
  refine hl.condition (y := fun b slots => if b then u slots else v slots) hcs hcode hg hskip fun b slots g m hg => ?_
  rw [Block.size_ifElse]
  cases b with
  | true =>
    refine (hyes f _ stack slots g m n hcs hyesIn hg).followed ?_
    rintro r g ⟨locals, rfl, hlocals⟩
    refine ⟨1, _, .jump hover, locals, ?_, hlocals⟩
    rw [hw']
    simp only [Nat.add_assoc]
  | false =>
    rw [if_neg Bool.false_ne_true, hw, ← Nat.add_assoc] at hg
    rw [if_neg Bool.false_ne_true]
    simpa only [Nat.add_assoc] using hno f _ stack slots g m n hcs hnoIn hg

/-- The rule for `&&` and `||`. -/
theorem shortCircuit {op : BinaryOp} (hl : Computes cs render left x) (hr : Computes cs render right y) :
    Computes cs render (ClassTree.shortCircuit op left right) fun slots => do
      let (v, slots) ← x slots
      let b ← Run.ask (·.truth v)
      if b = (op = .and) then y slots else return (.bool b, slots) := by
  unfold ClassTree.shortCircuit
  by_cases hop : op = .and
  · rw [if_pos hop]
    have hsame : ∀ (b : Bool) (slots : Slots), (if b = (op = .and) then y slots else pure (.bool b, slots)) =
        if b then y slots else pure (Value.bool false, slots) := by
      intro b slots
      cases b <;> simp [hop]
    simp only [hsame]
    exact hl.ifElse hr (pushBool false)
  · rw [if_neg hop]
    have hsame : ∀ (b : Bool) (slots : Slots), (if b = (op = .and) then y slots else pure (.bool b, slots)) =
        if b then pure (Value.bool true, slots) else y slots := by
      intro b slots
      cases b <;> simp [hop]
    simp only [hsame]
    exact hl.ifElse (pushBool true) hr

end Computes

/-! ## Statements -/

/-- The next step of a frame of the same call returns a value or nothing. -/
def Frame.Leaves (f : Frame) (v : Option Value) (g : Frame) : Prop :=
  g.target = f.target ∧ match v with
    | some v => Returning g v
    | none => Instr.at? g.code g.ip = some .retVoid

/-- What a statement leaves: a frame behind its code, or one that is about to return. -/
def Frame.Continues (f : Frame) (o : Nat) : Flow → Frame → Prop
  | .next slots, g => ∃ stack, f.Stands o stack slots g
  | .ret v, g => f.Leaves v g

/-- The code of a statement does what the computation does with the local slots. -/
def Performs (cs : Constants) (render : Value → Run String) (n : Nat) (code : Block) (x : Slots → Run Flow) : Prop :=
  ∀ (f : Frame) (o : Nat) (stack : List Value) (slots : Slots) (g : Frame) (m : Machine), f.constants = cs →
    code.In f o → f.Stands o stack slots g → Does render n g m (x slots) (f.Continues (o + code.size))

namespace Performs

variable {cs : Constants} {render : Value → Run String} {n : Nat} {code code' test : Block} {x y : Slots → Run Flow}
  {v : Slots → Run (Value × Slots)}

theorem empty : Performs cs render n .empty fun slots => pure (.next slots) :=
  fun _ _ stack _ _ _ _ _ hg => .pure ⟨stack, hg⟩

/-- The rule for what follows a statement. -/
theorem append (h : Performs cs render n code x) (h' : Performs cs render n code' y) :
    Performs cs render n (code ++ code') (fun slots => do (← x slots).andThen y) := by
  intro f o stack slots g m hcs hin hg
  obtain ⟨hfirst, hsecond⟩ := hin.append
  refine .bind (h f o stack slots g m hcs hfirst hg) ?_
  rintro (slots | v) g m hflow
  · obtain ⟨stack, hg⟩ := hflow
    rw [Block.size_append, ← Nat.add_assoc]
    exact h' f _ stack slots g m hcs hsecond hg
  · exact .pure hflow

/-- The rule for a value that is not used. -/
theorem popped (h : Computes cs render code v) : Performs cs render n (code ++ .one .pop) fun slots => do
    let (_, slots) ← v slots
    return .next slots := by
  intro f o stack slots g m hcs hin hg
  obtain ⟨hcode, hpop⟩ := hin.append
  refine .bind (h f o stack slots g m n hcs hcode hg) ?_
  rintro ⟨w, slots⟩ g m ⟨locals, rfl, hlocals⟩
  refine .step (.pop hpop.one) (.pure ⟨stack, locals, ?_, hlocals⟩)
  rw [Block.size_append, Block.size_one, ← Nat.add_assoc]

/-- The rule for a value that is left where it is. -/
theorem left (h : Computes cs render code v) : Performs cs render n code fun slots => do
    let (_, slots) ← v slots
    return .next slots := by
  intro f o stack slots g m hcs hin hg
  refine .bind (h f o stack slots g m n hcs hin hg) ?_
  rintro ⟨w, slots⟩ g m hg
  exact .pure ⟨w :: stack, hg⟩

/-- The rule for storing a value in a slot. -/
theorem store (slot : UInt16) (h : Computes cs render code v) :
    Performs cs render n (code ++ .one (.store slot)) fun slots => do
      let (v, slots) ← v slots
      return .next (Function.update slots slot.toNat v) := by
  intro f o stack slots g m hcs hin hg
  obtain ⟨hcode, hstore⟩ := hin.append
  refine .bind (h f o stack slots g m n hcs hcode hg) ?_
  rintro ⟨w, slots⟩ g m hg
  obtain ⟨g', hstep, hg'⟩ := hg.store hstore
  rw [Block.size_append, Block.size_one, ← Nat.add_assoc]
  exact .step hstep (.pure ⟨stack, hg'⟩)

/-- The rule for a return of a value. -/
theorem ret (h : Computes cs render code v) : Performs cs render n (code ++ .one .ret) fun slots => do
    let (v, _) ← v slots
    return .ret (some v) := by
  intro f o stack slots g m hcs hin hg
  obtain ⟨hcode, hret⟩ := hin.append
  refine .bind (h f o stack slots g m n hcs hcode hg) ?_
  rintro ⟨w, slots⟩ g m ⟨locals, rfl, hlocals⟩
  exact .pure ⟨rfl, hret.one, stack, rfl⟩

/-- The rule for a return without a value. -/
theorem retVoid : Performs cs render n (.one .retVoid) fun _ => pure (.ret none) := by
  rintro f o stack slots g m hcs hin ⟨locals, rfl, hlocals⟩
  exact .pure ⟨rfl, hin.one⟩

theorem ifThen (htest : Computes cs render test v) (h : Performs cs render n code x) :
    Performs cs render n (.ifThen test code) fun slots => do
      let (a, slots) ← v slots
      let b ← Run.ask (·.truth a)
      if b then x slots else return .next slots := by
  intro f o stack slots g m hcs hin hg
  obtain ⟨hin, hcode, w, hw, hskip⟩ := hin.ifThen
  refine htest.condition (y := fun b slots => if b then x slots else return .next slots) hcs hin hg hskip
    fun b slots g m hg => ?_
  rw [Block.size_ifThen]
  cases b with
  | true =>
    rw [if_pos rfl]
    simpa only [Nat.add_assoc] using h f _ stack slots g m hcs hcode hg
  | false =>
    rw [if_neg Bool.false_ne_true, hw] at hg
    refine .pure ⟨stack, ?_⟩
    simpa only [Nat.add_assoc] using hg

theorem ifElse (htest : Computes cs render test v) (h : Performs cs render n code x) (h' : Performs cs render n code' y) :
    Performs cs render n (.ifElse test code code') (fun slots => do
      let (a, slots) ← v slots
      let b ← Run.ask (·.truth a)
      if b then x slots else y slots) := by
  intro f o stack slots g m hcs hin hg
  obtain ⟨hin, hcode, hcode', ⟨w, hw, hskip⟩, w', hw', hover⟩ := hin.ifElse
  refine htest.condition (y := fun b slots => if b then x slots else y slots) hcs hin hg hskip fun b slots g m hg => ?_
  rw [Block.size_ifElse]
  cases b with
  | true =>
    refine (h f _ stack slots g m hcs hcode hg).followed ?_
    rintro (slots | v) g hflow
    · obtain ⟨stack, locals, rfl, hlocals⟩ := hflow
      refine ⟨1, _, .jump hover, stack, locals, ?_, hlocals⟩
      rw [hw']
      simp only [Nat.add_assoc]
    · exact ⟨0, g, .refl g, hflow⟩
  | false =>
    rw [if_neg Bool.false_ne_true, hw, ← Nat.add_assoc] at hg
    rw [if_neg Bool.false_ne_true]
    simpa only [Nat.add_assoc] using h' f _ stack slots g m hcs hcode' hg

/-- The rule for a loop, by induction over the rounds that are allowed. -/
theorem loop (htest : Computes cs render test v) (h : Performs cs render n code x) :
    Performs cs render n (.repeatWhile test code) (goAround (fun slots => do
      let (a, slots) ← v slots
      return (← Run.ask (·.truth a), slots)) x n) := by
  intro f o stack slots g m hcs hin hg
  obtain ⟨hin, hcode, ⟨w, hw, hskip⟩, w', hw', hback⟩ := hin.repeatWhile
  rw [Block.size_repeatWhile]
  have hrounds : ∀ j ≤ n, ∀ stack slots g m, f.Stands o stack slots g →
      Does render j g m (goAround (fun slots => do
        let (a, slots) ← v slots
        return (← Run.ask (·.truth a), slots)) x j slots)
        (f.Continues (o + (test.size + Block.jumpSize + code.size + Block.jumpSize))) := by
    intro j
    induction j with
    | zero =>
      intro _ stack slots g m _ fuel hfuel callers
      obtain rfl : fuel = 0 := by omega
      exact ⟨m, rfl⟩
    | succ j ih =>
      intro hj stack slots g m hg
      rw [goAround]
      simp only [bind_assoc, pure_bind]
      refine htest.condition (y := fun b slots => if b then (do (← x slots).andThen (goAround _ x j))
        else return .next slots) hcs hin hg hskip fun b slots g m hg => ?_
      cases b with
      | true =>
        refine .bind ((h f _ stack slots g m hcs hcode hg).of_le hj) ?_
        rintro (slots | v) g m hflow
        · obtain ⟨stack, locals, rfl, hlocals⟩ := hflow
          have hloop : Steps 1 (f.move (o + test.size + Block.jumpSize + code.size) stack locals)
              (f.move o stack locals) := by
            have htarget : o = o + test.size + Block.jumpSize + code.size + Block.jumpSize - w'.toNat := by omega
            nth_rewrite 2 [htarget]
            exact .loop hback (by omega)
          have hrest := Does.of_steps hloop (ih (by omega) stack slots _ m ⟨locals, rfl, hlocals⟩)
          rwa [Nat.add_comm] at hrest
        · exact .pure hflow
      | false =>
        rw [if_neg Bool.false_ne_true, hw] at hg
        refine .pure ⟨stack, ?_⟩
        simpa only [Nat.add_assoc] using hg
  exact hrounds n (Nat.le_refl n) stack slots g m hg

end Performs

end ClassTree
