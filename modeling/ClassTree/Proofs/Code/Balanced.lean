import Mathlib.Data.List.Induction
import ClassTree.Proofs.Descriptor
import ClassTree.Proofs.Code.Flow
import ClassTree.Proofs.Pool
import ClassTree.Compile.Basic

/-!
# Balanced code

`Instr.Moves p i pops pushes`: by the constants of the pool `p`, the instruction `i` takes `pops` operands from the stack and
puts `pushes` on it. `Block.Balanced p b d leaves`: entered with `d` operands, the block `b` never takes one of these, and
however control gets to its end, there are as many as `leaves` says, where `none` means that control does not get there.

Blocks are shown to be balanced by the discipline of depths that stay above a floor (`Pool.depthsAbove`). `Block.Moves` and
`Block.Ends` say for every floor what a block does to the depth, with one rule for each way in which blocks are put together.
Code that begins with no operands and whose end is not reached is orderly (`Block.Ends.orderly`): it is read back as it was
made, its jumps lead to instructions or to its end, and control never runs off its end.
-/

namespace ClassTree

/-- How many values a call with a result of the type leaves. -/
def Ty.values (t : Ty) : Nat := if t.isVoid then 0 else 1

theorem Ty.values_eq_one {t : Ty} (h : t.isVoid = false) : t.values = 1 := by simp [values, h]

/-! ## What instructions do to the stack -/

namespace Instr

/-- How many operands the instruction takes from the stack, and how many it puts on it. What a call by reference does is said
by the constants, if they can be read. -/
def moves? (cs : Constants) : Instr → Option (Nat × Nat)
  | .jump _ | .loop _ | .retVoid => some (0, 0)
  | .ldc _ | .push _ | .load _ | .new _ => some (0, 1)
  | .pop | .store _ | .jumpIfFalse _ | .ret => some (1, 0)
  | .field .get _ | .fieldDyn .get _ | .neg | .not | .widen _ => some (1, 1)
  | .dup => some (1, 2)
  | .field .put _ | .fieldDyn .put _ => some (2, 0)
  | .arith _ | .concat | .compare _ => some (2, 1)
  | .dupX1 => some (2, 3)
  | .invoke kind ref => do
    let ref ← cs.methodRef? ref
    let sig ← Signature.ofDescriptor? ref.descriptor
    return (sig.params.length + if kind = .static then 0 else 1, sig.ret.values)
  | .invokeDynamic _ argc | .invokeSpecialDyn _ argc => some (argc.toNat + 1, 1)
  | .invokeStaticDyn _ _ argc => some (argc.toNat, 1)

/-- By the constants of a finished pool, the instruction takes `pops` operands and puts `pushes`. They leave this open only
for a call whose reference did not fit into the pool. -/
def Moves (p : Pool) (i : Instr) (pops pushes : Nat) : Prop :=
  i.moves? p.constants = some (pops, pushes) ∨ p.overflowed = true ∧ i.moves? p.constants = none

end Instr

/-- The verification of code takes the same effects. -/
theorem CodeCheck.moves?_of_effect {k : CodeCheck} {o : Nat} {i : Instr} {e : Effect} (h : k.effect o i = .ok e) :
    i.moves? k.constants = some (e.pops, e.pushes) := by
  cases i with
  | field access ref =>
    obtain ⟨-, -, h⟩ := bind_eq_ok.1 h
    cases access <;> (cases h; rfl)
  | fieldDyn access name =>
    obtain ⟨-, -, h⟩ := bind_eq_ok.1 h
    cases access <;> (cases h; rfl)
  | invoke kind ref =>
    simp only [effect, bind_eq_ok, need, orFail_eq_ok] at h
    obtain ⟨ref', href, sig, hsig, h⟩ := h
    split at h
    · cases h
    · cases h
      simp only [Instr.moves?, href, hsig, Option.bind_eq_bind, Option.bind_some, Option.pure_def, Ty.values]
  | new | invokeDynamic | invokeSpecialDyn =>
    obtain ⟨-, -, h⟩ := bind_eq_ok.1 h
    cases h
    rfl
  | invokeStaticDyn =>
    obtain ⟨-, -, h⟩ := bind_eq_ok.1 h
    obtain ⟨-, -, h⟩ := bind_eq_ok.1 h
    cases h
    rfl
  | ldc | load | store | loop | ret =>
    simp only [effect] at h
    split at h <;> first | (cases h; rfl) | cases h
  | _ =>
    cases h
    rfl

/-! ## Depths above a floor -/

/-- Stack depths, of which the operands below a floor are left alone. -/
def Pool.depthsAbove (p : Pool) (floor : Nat) : Discipline Nat where
  admits i := ∃ pops pushes, i.Moves p pops pushes
  step i n n' := ∃ pops pushes, i.Moves p pops pushes ∧ floor + pops ≤ n ∧ n' = n - pops + pushes
  entails := Eq
  refl := Eq.refl
  trans := Eq.trans

namespace Block

variable {p : Pool} {a b : Block} {i : Instr} {k l k' l' m pops pushes : Nat}

/-- Entered with `d` operands, the block takes none of these, no jump of it leaves it, and where control gets to its end, there
are as many operands as `leaves` says. With `none` control does not get there. -/
def Balanced (p : Pool) (b : Block) (d : Nat) (leaves : Option Nat) : Prop :=
  ∃ D : Nat → Option Nat, D 0 = some d ∧ D b.size = leaves ∧
    ∀ o i n, b.Stands o i → D o = some n → ∃ pops pushes, i.Moves p pops pushes ∧ d + pops ≤ n ∧
      ∀ x ∈ i.leads o, b.Boundary x ∧ D x = some (n - pops + pushes)

/-- The block takes so many operands and puts so many. -/
def Moves (p : Pool) (b : Block) (pops pushes : Nat) : Prop :=
  ∀ floor n, floor + pops ≤ n → b.Flows (p.depthsAbove floor) (some n) (some (n - pops + pushes))

/-- The block leaves the stack as it found it, or ends in returns. -/
def Ends (p : Pool) (b : Block) (returns : Bool) : Prop :=
  ∀ floor n, floor ≤ n → b.Flows (p.depthsAbove floor) (some n) (if returns then none else some n)

theorem sub_depthsAbove {floor n : Nat} {x : Option Nat} : (p.depthsAbove floor).Sub (some n) x ↔ x = some n := by
  cases x with
  | none => simp [Discipline.Sub]
  | some m => simp [Discipline.Sub, Pool.depthsAbove, eq_comm]

theorem Stands.next {o : Nat} (h : b.Stands o i) : b.Boundary (o + i.size) := by
  obtain ⟨before, after, heq, rfl⟩ := h
  have hlen : (before.flatMap Instr.encode).length + i.size = ((before ++ [i]).flatMap Instr.encode).length := by
    simp [Instr.length_encode]
  rw [hlen]
  cases after with
  | nil =>
    refine .inl ?_
    rw [size, codeSize_eq, encodeCode, heq]
  | cons j after => exact .inr ⟨j, before ++ [i], after, by simpa using heq, rfl⟩

theorem boundary_of_mem_leads {o x : Nat} (hi : b.Stands o i) (hto : ∀ t, i.target? o = some t → b.Boundary t)
    (hx : x ∈ i.leads o) : b.Boundary x := by
  rcases List.mem_append.1 hx with hx | hx
  · exact hto x (by simpa using hx)
  · split at hx
    · cases hx
    · rw [List.mem_singleton.1 hx]
      exact hi.next

theorem Flows.balanced {d : Nat} {leaves : Option Nat} (h : b.Flows (p.depthsAbove d) (some d) leaves)
    (hover : b.overflowed = false) : b.Balanced p d leaves := by
  obtain ⟨D, hstart, hend, hfits⟩ := h hover 0
  rw [sub_depthsAbove] at hstart
  simp only [FitsIn, Nat.zero_add, exists_eq_left'] at hend hfits
  refine ⟨D, hstart, hend, fun o i n hi hn => ?_⟩
  obtain ⟨-, -, hto, hdepths⟩ := hfits o i hi
  obtain ⟨-, ⟨pops, pushes, hmoves, hle, rfl⟩, hleads⟩ := hdepths n hn
  exact ⟨pops, pushes, hmoves, hle, fun x hx => ⟨boundary_of_mem_leads hi hto hx, sub_depthsAbove.1 (hleads x hx)⟩⟩

/-- Control gets to an offset with so many operands on the stack, if it enters the block with `d`. -/
inductive Run (p : Pool) (b : Block) (d : Nat) : Nat → Nat → Prop
  | start : Run p b d 0 d
  | lead {o n x pops pushes : Nat} {i : Instr} (h : Run p b d o n) (hi : b.Stands o i)
      (hmoves : i.moves? p.constants = some (pops, pushes)) (hx : x ∈ i.leads o) : Run p b d x (n - pops + pushes)

/-- On every way through a balanced block: control stays inside, each instruction finds what it takes above the operands that
the block was entered with, and what is there at the end is what the block leaves. -/
theorem Balanced.run {d o n : Nat} {leaves : Option Nat} (h : b.Balanced p d leaves) (hrun : b.Run p d o n) :
    b.Boundary o ∧ (o = b.size → leaves = some n) ∧ ∀ i pops pushes, b.Stands o i →
      i.moves? p.constants = some (pops, pushes) → d + pops ≤ n := by
  obtain ⟨D, hstart, hend, hstep⟩ := h
  have hagree : ∀ {o n i pops pushes}, b.Stands o i → D o = some n → i.moves? p.constants = some (pops, pushes) →
      d + pops ≤ n ∧ ∀ x ∈ i.leads o, b.Boundary x ∧ D x = some (n - pops + pushes) := by
    intro o n i pops pushes hi hn hmoves
    obtain ⟨pops', pushes', hsame | ⟨-, hnone⟩, hle, hleads⟩ := hstep o i n hi hn
    · rw [hmoves] at hsame
      cases hsame
      exact ⟨hle, hleads⟩
    · rw [hmoves] at hnone
      cases hnone
  have hdepth : b.Boundary o ∧ D o = some n := by
    induction hrun with
    | start => exact ⟨b.boundary_zero, hstart⟩
    | lead _ hi hmoves hx ih => exact (hagree hi ih.2 hmoves).2 _ hx
  refine ⟨hdepth.1, ?_, fun i pops pushes hi hmoves => (hagree hi hdepth.2 hmoves).1⟩
  rintro rfl
  rw [← hend, hdepth.2]

theorem Moves.balanced (h : b.Moves p 0 k) (hover : b.overflowed = false) (d : Nat) : b.Balanced p d (some (d + k)) :=
  (h d d (Nat.le_refl d)).balanced hover

theorem Ends.balanced {returns : Bool} (h : b.Ends p returns) (hover : b.overflowed = false) (d : Nat) :
    b.Balanced p d (if returns then none else some d) := (h d d (Nat.le_refl d)).balanced hover

/-- Code that is not reached keeps every discipline that it keeps where it is. -/
theorem Flows.unreached {σ : Type} {J : Discipline σ} {s t : Option σ} (h : b.Flows J s t) : b.Flows J none none := by
  intro hover base
  obtain ⟨D, -, -, hfits⟩ := h hover base
  refine ⟨fun _ => none, trivial, rfl, fun o i hi => ?_⟩
  obtain ⟨hadmits, hwithin, hto, -⟩ := hfits o i hi
  exact ⟨hadmits, hwithin, hto, fun s hs => nomatch hs⟩

/-! ## What blocks do to the stack -/

theorem moves_empty : empty.Moves p 0 0 := fun _ _ _ => .empty _

theorem ends_empty : empty.Ends p false := fun _ _ _ => .empty _

/-- The rule for an instruction that does not jump. -/
theorem moves_one (h : i.Moves p pops pushes) (htarget : ∀ o, i.target? o = none) : (one i).Moves p pops pushes :=
  fun _ _ hle => .one ⟨pops, pushes, h⟩ htarget ⟨pops, pushes, h, hle, rfl⟩ (.inr rfl)

/-- The rule for a block behind another that has put what it takes. -/
theorem Moves.append (ha : a.Moves p k l) (hb : b.Moves p k' l') (hle : k' ≤ l) (hm : m = l - k' + l') :
    (a ++ b).Moves p k m := by
  intro floor n hn
  have hb := hb floor (n - k + l) (by omega)
  rw [show n - k + l - k' + l' = n - k + m by omega] at hb
  exact (ha floor n hn).append hb

/-- A value that is turned into something else, or used up. -/
theorem Moves.step (ha : a.Moves p k l) (hi : i.Moves p pops pushes) (htarget : ∀ o, i.target? o = none) (hle : pops ≤ l)
    (hm : m = l - pops + pushes) : (a ++ one i).Moves p k m := ha.append (moves_one hi htarget) hle hm

theorem tests_depthsAbove {floor n : Nat} (hle : floor ≤ n) : Flows.Tests (p.depthsAbove floor) (n + 1) n :=
  ⟨fun _ => ⟨1, 0, .inl rfl⟩, fun _ => ⟨1, 0, .inl rfl, by omega, by omega⟩⟩

theorem step_jump {floor n : Nat} (hle : floor ≤ n) (w : UInt16) : (p.depthsAbove floor).step (.jump w) n n :=
  ⟨0, 0, .inl rfl, by omega, by omega⟩

/-- The rule for code that leaves one value on either way. -/
theorem Moves.ifElse {test yes no : Block} (htest : test.Moves p 0 1) (hyes : yes.Moves p 0 1) (hno : no.Moves p 0 1) :
    (Block.ifElse test yes no).Moves p 0 1 := by
  intro floor n hn
  refine Flows.ifElse (htest floor n hn) (tests_depthsAbove (by omega)) (hyes floor n hn) (hno floor n hn)
    (fun w => ⟨0, 0, .inl rfl⟩) fun w s hs => ?_
  cases hs
  exact step_jump (by omega) w

theorem Moves.shortCircuit {op : BinaryOp} (ha : a.Moves p 0 1) (hb : b.Moves p 0 1) :
    (shortCircuit op a b).Moves p 0 1 := by
  have hpush : ∀ x, (one (.push x)).Moves p 0 1 := fun _ => moves_one (.inl rfl) fun _ => rfl
  unfold ClassTree.shortCircuit
  split
  · exact ha.ifElse hb (hpush _)
  · exact ha.ifElse (hpush _) hb

/-- Code that leaves nothing behind. -/
theorem Moves.ends (h : b.Moves p 0 0) : b.Ends p false := h

/-- The rule for a return. -/
theorem Moves.returns (ha : a.Moves p 0 l) (hi : i.Moves p pops pushes) (htarget : ∀ o, i.target? o = none)
    (hends : i.opcode.isTerminator = true) (hle : pops ≤ l) : (a ++ one i).Ends p true := by
  intro floor n hn
  exact (ha floor n hn).append (.one ⟨pops, pushes, hi⟩ htarget ⟨pops, pushes, hi, by omega, rfl⟩ (.inl hends))

/-- Code behind a return is not reached. -/
theorem Ends.append {x y : Bool} (ha : a.Ends p x) (hb : b.Ends p y) : (a ++ b).Ends p (x || y) := by
  intro floor n hn
  have hfirst := ha floor n hn
  have hsecond := hb floor n hn
  cases x with
  | true => exact hfirst.append hsecond.unreached
  | false => exact hfirst.append hsecond

/-- Code that ends in returns may be taken for code that goes on. -/
theorem Ends.weaken {x y : Bool} (h : b.Ends p x) (hxy : y = true → x = true) : b.Ends p y := by
  intro floor n hn
  refine (h floor n hn).mono ((p.depthsAbove floor).sub_refl _) ?_
  cases x with
  | true => trivial
  | false =>
    rw [Bool.eq_false_iff.2 fun hy => Bool.noConfusion (hxy hy)]
    exact (p.depthsAbove floor).sub_refl _

theorem Ends.ifThen {test : Block} {x : Bool} (htest : test.Moves p 0 1) (hb : b.Ends p x) :
    (Block.ifThen test b).Ends p false := by
  intro floor n hn
  have hb : b.Ends p false := hb.weaken fun h => nomatch h
  exact Flows.ifThen (htest floor n hn) (tests_depthsAbove hn) (hb floor n hn) ((p.depthsAbove floor).sub_refl _)

theorem Ends.ifElse {test yes no : Block} {x y : Bool} (htest : test.Moves p 0 1) (hyes : yes.Ends p x) (hno : no.Ends p y) :
    (Block.ifElse test yes no).Ends p (x && y) := by
  intro floor n hn
  have hyes : yes.Ends p (x && y) := hyes.weaken fun h => (Bool.and_eq_true_iff.1 h).1
  have hno : no.Ends p (x && y) := hno.weaken fun h => (Bool.and_eq_true_iff.1 h).2
  refine Flows.ifElse (htest floor n hn) (tests_depthsAbove hn) (hyes floor n hn) (hno floor n hn)
    (fun w => ⟨0, 0, .inl rfl⟩) fun w s hs => ?_
  split at hs
  · cases hs
  · cases hs
    exact step_jump hn w

theorem Ends.repeatWhile {test : Block} {x : Bool} (htest : test.Moves p 0 1) (hb : b.Ends p x) :
    (Block.repeatWhile test b).Ends p false := by
  intro floor n hn
  have hb : b.Ends p false := hb.weaken fun h => nomatch h
  exact Flows.repeatWhile (htest floor n hn) (tests_depthsAbove hn) (hb floor n hn) (fun w => ⟨0, 0, .inl rfl⟩)
    fun w => ⟨0, 0, .inl rfl, by omega, by omega⟩

/-! ## Whole code -/

/-- Control can get from the start of the block to an offset. -/
inductive Reached (b : Block) : Nat → Prop
  | start : Reached b 0
  | lead {o x : Nat} {i : Instr} (h : Reached b o) (hi : b.Stands o i) (hx : x ∈ i.leads o) : Reached b x

end Block

/-- The offsets that are met when code is read from its start, one instruction after the other. -/
inductive Instr.Met (code : Array UInt8) : Nat → Prop
  | start : Met code 0
  | next {o : Nat} {i : Instr} (h : Met code o) (hi : at? code o = some i) : Met code (o + i.size)

namespace Block

variable {p : Pool} {b : Block} {i : Instr} {o : Nat}

/-- Where an instruction stands, it is read. -/
theorem Stands.at? (h : b.Stands o i) : Instr.at? b.encode o = some i := by
  obtain ⟨before, after, heq, rfl⟩ := h
  refine At.one ⟨before.flatMap Instr.encode, after.flatMap Instr.encode, ?_, rfl⟩
  simp [encode, encodeCode, heq, one]

theorem at?_size (b : Block) : Instr.at? b.encode b.size = none := by
  have hsize : b.encode.size = b.size := by rw [encode, size, codeSize_eq, List.size_toArray]
  rw [Instr.at?, Array.getElem?_eq_none (by omega)]
  rfl

/-- Reading meets the instructions where they stand, and the end. -/
theorem met_iff : Instr.Met b.encode o ↔ b.Boundary o := by
  constructor
  · intro h
    induction h with
    | start => exact b.boundary_zero
    | next _ hi ih =>
      rcases ih with rfl | ⟨j, hj⟩
      · rw [at?_size] at hi
        cases hi
      · obtain rfl : _ = j := Option.some.inj (hi.symm.trans hj.at?)
        exact hj.next
  · -- By induction on what comes before.
    have hprefix : ∀ before after, b.instrs.toList = before ++ after →
        Instr.Met b.encode (before.flatMap Instr.encode).length := by
      intro before
      induction before using List.reverseRecOn with
      | nil => exact fun _ _ => .start
      | append_singleton before j ih =>
        intro after heq
        rw [List.append_assoc] at heq
        have hj : b.Stands (before.flatMap Instr.encode).length j := ⟨before, after, heq, rfl⟩
        have hnext := (ih _ heq).next hj.at?
        rwa [← Instr.length_encode, ← List.length_append, ← List.flatMap_singleton (f := Instr.encode),
          ← List.flatMap_append] at hnext
    rintro (rfl | ⟨i, before, after, heq, rfl⟩)
    · have hall := hprefix _ [] (List.append_nil _).symm
      rwa [size, codeSize_eq, encodeCode]
    · exact hprefix before _ heq

/-- Code that can be run without harm to the stack of its caller. -/
structure Orderly (p : Pool) (b : Block) : Prop where
  /-- Reading its bytes from the start meets its instructions where they stand, and the end. -/
  met : ∀ o, Instr.Met b.encode o ↔ b.Boundary o
  read : ∀ o i, b.Stands o i → Instr.at? b.encode o = some i
  /-- Jumps lead to instructions or to the end. -/
  lands : ∀ o i, b.Stands o i → i.Within o ∧ ∀ t, i.target? o = some t → b.Boundary t
  balanced : b.Balanced p 0 none
  /-- Control never gets to the end. -/
  stays : ∀ o, b.Reached o → ∃ i, b.Stands o i

theorem Balanced.stays {d : Nat} (h : b.Balanced p d none) (ho : b.Reached o) : ∃ i, b.Stands o i := by
  obtain ⟨D, hstart, hend, hstep⟩ := h
  have hdepth : ∃ n, D o = some n ∧ b.Boundary o := by
    induction ho with
    | start => exact ⟨d, hstart, b.boundary_zero⟩
    | lead _ hi hx ih =>
      obtain ⟨n, hn, -⟩ := ih
      obtain ⟨pops, pushes, -, -, hleads⟩ := hstep _ _ n hi hn
      obtain ⟨hb, hn⟩ := hleads _ hx
      exact ⟨_, hn, hb⟩
  obtain ⟨n, hn, rfl | hi⟩ := hdepth
  · rw [hend] at hn
    cases hn
  · exact hi

theorem Ends.orderly (h : b.Ends p true) (hover : b.overflowed = false) : b.Orderly p := by
  have hbalanced := h.balanced hover 0
  refine ⟨fun _ => met_iff, fun _ _ hi => hi.at?, fun o i hi => ?_, hbalanced, fun _ => hbalanced.stays⟩
  obtain ⟨D, -, -, hfits⟩ := h 0 0 (Nat.le_refl 0) hover 0
  simp only [FitsIn, Nat.zero_add, exists_eq_left'] at hfits
  obtain ⟨-, hwithin, hto, -⟩ := hfits o i hi
  exact ⟨hwithin, hto⟩

end Block

end ClassTree
