import ClassTree.Proofs.Code.Decoded
import ClassTree.Proofs.Machine.Steps
import ClassTree.Proofs.Machine.VerifiedStep

/-!
# Calls from outside

A call of a static method with code is a run of one frame (`Run.call_eq_nest`). If the class is verified, the code of the
method stands in this frame, which has all slots that the code names (`Block.in_entered`).
-/

namespace ClassTree

open Run

/-- A call of a static method with code is a run of the frame that it begins with. -/
theorem Run.call_eq_nest {t : Target} {maxLocals : UInt16} {code : Array UInt8} {args passed : List Value}
    {m : Machine} (hbody : t.method.body = .code maxLocals code) (hlength : args.length = t.method.params.length)
    (hargs : m.heap.coerceAll args t.method.params = .ok passed) (hdepth : m.depth < m.maxDepth) (fuel : Nat) :
    Run.call fuel t none args unwatched m =
      nest (drive unwatched (textOf (frameAt unwatched fuel maxNestedRuns)) fuel
        { target := t, code, locals := initialLocals none passed maxLocals } []) m := by
  have hbegin : beginCall (stringify fuel) t none args m =
      .ok (.enter { target := t, code, locals := initialLocals none passed maxLocals }) m := by
    unfold beginCall
    change (if m.depth ≥ m.maxDepth then _ else _ : Run Invocation) m = _
    rw [if_neg (by omega)]
    rw [if_neg (by omega)]
    change EStateM.bind (Run.ask fun h => h.coerceAll args t.method.params) _ m = _
    rw [EStateM.bind, ask_eq_ok hargs]
    simp only [hbody]
    rfl
  rw [Run.call, callWith]
  change EStateM.bind _ _ m = _
  rw [EStateM.bind, hbegin]
  rfl

theorem Run.nest_eq {α : Type} {x : Run α} {m : Machine} (h : m.nestedRuns < maxNestedRuns) :
    nest x m = match x { m with depth := m.depth + 1, nestedRuns := m.nestedRuns + 1 } with
      | .ok a m' => .ok a { m' with depth := m.depth, nestedRuns := m'.nestedRuns - 1 }
      | .error e m' => .error e { m' with depth := m.depth, nestedRuns := m'.nestedRuns - 1 } :=
  if_neg (by omega)

/-- Verified code names only slots that the frame of a call has. -/
theorem slot_lt_of_analyze {k : CodeCheck} {code : Block} {a : Array (Option Effect) × Array (Option Nat)}
    (hcode : k.code = code.encode) (h : k.analyze = .ok a) {i : Instr} (hi : i ∈ code.instrs) {slot : UInt16}
    (hslot : i.slot? = some slot) : slot.toNat < k.maxLocals.toNat := by
  obtain ⟨effects, hdecode, -⟩ := bind_eq_ok.1 h
  obtain ⟨o, hstands⟩ := Instr.exists_stands (Array.mem_toList_iff.2 hi)
  obtain ⟨e, he, -⟩ := CodeCheck.decode_effects hcode hdecode hstands
  have hlt : ∀ {x y : Except VerifyError Effect}, (if slot < k.maxLocals then x else y) = .ok e → (∀ z, y ≠ .ok z) →
      slot.toNat < k.maxLocals.toNat := by
    intro x y heq hy
    split at heq
    · rename_i hlt
      exact UInt16.lt_iff_toNat_lt.1 hlt
    · exact absurd heq (hy e)
  cases i <;> cases hslot <;> exact hlt he nofun

/-- The code of a method of a verified class stands in the frame with which a call of the method begins. -/
theorem Block.in_entered {cls : LoadedClass} {lm : LoadedMethod} {maxLocals : UInt16} {code : Block}
    (hverified : cls.Verified) (hmem : lm ∈ cls.methods) (hbody : lm.body = .code maxLocals code.encode)
    (hover : code.overflowed = false) (args : List Value) :
    code.In { target := ⟨cls, lm⟩, code := code.encode, locals := initialLocals none args maxLocals } 0 := by
  have hk : lm.check? cls.constants = some ⟨cls.constants, lm.text, maxLocals, code.encode, !lm.ret.isVoid⟩ := by
    simp [LoadedMethod.check?, hbody]
  obtain ⟨_, hanalyze⟩ := hverified.code lm hmem _ hk
  refine ⟨code.at_encode, hover, fun i hi slot hslot => ?_⟩
  exact Nat.lt_of_lt_of_le (slot_lt_of_analyze rfl hanalyze hi hslot) (le_size_initialLocals _ _ _)

end ClassTree
