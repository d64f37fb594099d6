import ClassTree.Proofs.Compile.Proper
import ClassTree.Proofs.Verify.Reachable

/-!
# The verification of orderly code

`Instr.Arrives cs code o n`: run from its start with an empty stack, the code gets to the offset `o` with `n` operands on the
stack. `Instr.WithinLimits cs code`: the code names no slot that the number of local variables cannot cover, and wherever it
gets, there are no more operands than a stack may hold.

Of orderly code made of proper instructions verification asks nothing else (`CodeCheck.Written.exists_analyze_iff`).
-/

namespace ClassTree

/-! ## Successors of instructions -/

namespace CodeCheck

variable {k : CodeCheck} {o : Nat} {i : Instr} {e : Effect}

theorem target_of_effect (h : k.effect o i = .ok e) : e.target = i.target? o := by
  cases i with
  | field access ref =>
    obtain ⟨-, -, h⟩ := bind_eq_ok.1 h
    cases access <;> (cases h; rfl)
  | fieldDyn access name =>
    obtain ⟨-, -, h⟩ := bind_eq_ok.1 h
    cases access <;> (cases h; rfl)
  | invoke kind ref =>
    simp only [effect, bind_eq_ok] at h
    obtain ⟨_, _, _, _, h⟩ := h
    split at h
    · cases h
    · cases h
      rfl
  | new | invokeDynamic | invokeSpecialDyn =>
    obtain ⟨-, -, h⟩ := bind_eq_ok.1 h
    cases h
    rfl
  | invokeStaticDyn =>
    obtain ⟨-, -, h⟩ := bind_eq_ok.1 h
    obtain ⟨-, -, h⟩ := bind_eq_ok.1 h
    cases h
    rfl
  | ldc | load | store | loop | ret =>
    simp only [effect] at h
    split at h <;> first | (cases h; rfl) | cases h
  | _ =>
    cases h
    rfl

/-- Verification lets control go on to where the instruction leads. -/
theorem successors_eq_leads (h : k.effect o i = .ok e) : successors o e = i.leads o := by
  rw [successors, Instr.leads, target_of_effect h, op_of_effect h, Instr.size, Nat.add_assoc]

theorem checkTargetsFrom_of_onBoundary {effects : Array (Option Effect)} {es : List (Option Effect)} (offset : Nat)
    (h : ∀ e t, some e ∈ es → e.target = some t → onBoundary effects t = true) :
    k.checkTargetsFrom effects offset es = .ok () := by
  induction es generalizing offset with
  | nil => rfl
  | cons e es ih =>
    have hrest := ih (offset + 1) fun e t he => h e t (List.mem_cons_of_mem _ he)
    rw [checkTargetsFrom]
    split
    · rename_i t ht
      obtain ⟨e, rfl, ht⟩ := Option.bind_eq_some_iff.1 ht
      rw [if_pos (h e t List.mem_cons_self ht)]
      exact hrest
    · exact hrest

/-- The check of the jumps succeeds if all lead to instructions or to the end of the code. -/
theorem checkTargets_of_onBoundary {effects : Array (Option Effect)}
    (h : ∀ (o : Nat) (e : Effect) t, effects[o]? = some (some e) → e.target = some t → onBoundary effects t = true) :
    k.checkTargets effects = .ok () := by
  refine checkTargetsFrom_of_onBoundary 0 fun e t he => ?_
  obtain ⟨o, ho⟩ := List.mem_iff_getElem?.1 he
  exact h o e t (by rwa [Array.getElem?_toList] at ho)

end CodeCheck

/-! ## Where code gets -/

/-- Run from its start with an empty stack, the code gets to an offset with so many operands on the stack. -/
inductive Instr.Arrives (cs : Constants) (code : Array UInt8) : Nat → Nat → Prop
  | start : Arrives cs code 0 0
  | lead {o n x pops pushes : Nat} {i : Instr} (h : Arrives cs code o n) (hi : at? code o = some i)
      (hmoves : i.moves? cs = some (pops, pushes)) (hx : x ∈ i.leads o) : Arrives cs code x (n - pops + pushes)

/-- The code names no slot that the number of local variables cannot cover, and keeps the stack from getting too deep. -/
structure Instr.WithinLimits (cs : Constants) (code : Array UInt8) : Prop where
  slots : ∀ o s, Met code o → at? code o = some (.load s) ∨ at? code o = some (.store s) → s.toNat < 65535
  depth : ∀ o n, Arrives cs code o n → n ≤ maxStackDepth

/-- What leads nowhere leaves nothing. -/
theorem Instr.pushes_of_leads {cs : Constants} {i : Instr} {o pops pushes : Nat} (hmoves : i.moves? cs = some (pops, pushes))
    (h : i.leads o = []) : pushes = 0 := by
  rw [leads, List.append_eq_nil_iff] at h
  have hterm : i.opcode.isTerminator = true := by
    by_contra hgoes
    rw [if_neg hgoes] at h
    cases h.2
  cases i with
  | ret | retVoid =>
    cases hmoves
    rfl
  | jump | loop => cases h.1
  | push k => cases k <;> cases hterm
  | field access | fieldDyn access => cases access <;> cases hterm
  | invoke kind => cases kind <;> cases hterm
  | arith op | compare op => cases op <;> cases hterm
  | widen w => cases w <;> cases hterm
  | _ => cases hterm

section Orderly

variable {k : CodeCheck} {code : Block} {p : Pool} {slots : Nat}

/-- What an instruction of a finished class does to the stack is said by its constants. -/
theorem Instr.Moves.of_not_overflowed {i : Instr} {pops pushes : Nat} (h : i.Moves p pops pushes)
    (hover : p.overflowed = false) : i.moves? p.constants = some (pops, pushes) :=
  h.resolve_right fun h => Bool.false_ne_true (hover.symm.trans h.1)

/-- The depths of accepted code are those with which it gets to its instructions. -/
theorem CodeCheck.Consistent.arrives {effects : Array (Option Effect)} {D : Nat → Nat} (h : k.Consistent effects D)
    (hdecode : k.decode = .ok effects) (htargets : k.checkTargets effects = .ok ()) {o n : Nat}
    (harrives : Instr.Arrives k.constants k.code o n) : Reachable effects o ∧ D o = n ∧ n ≤ maxStackDepth := by
  induction harrives with
  | start => exact ⟨.start, h.start, Nat.zero_le _⟩
  | @lead o n x pops pushes i _ hi hmoves hx ih =>
    obtain ⟨hreach, rfl, -⟩ := ih
    -- An instruction was decoded where control gets, and it is the one that is read there.
    obtain ⟨e, he⟩ : ∃ e, effects[o]? = some (some e) := by
      rcases onBoundary_iff.1 (hreach.onBoundary hdecode htargets) with hend | hsome
      · have hin := h.inside o hreach
        rw [← (decode_sound hdecode).1] at hin
        omega
      · obtain ⟨e, he⟩ := Option.isSome_iff_exists.1 hsome
        exact ⟨e, Option.join_eq_some_iff.1 he⟩
    obtain ⟨j, hj, heffect⟩ := (decode_sound hdecode).2 o e he
    obtain rfl : i = j := Option.some.inj (hi.symm.trans hj)
    cases hmoves.symm.trans (moves?_of_effect heffect)
    have hbounded := h.bounded o e hreach he
    rw [← successors_eq_leads heffect] at hx
    refine ⟨hreach.successor he hx, ?_, hbounded⟩
    rcases mem_successors.1 hx with ht | ⟨hterm, rfl⟩
    · exact h.branch o e x hreach he ht
    · exact h.next o e hreach he hterm

/-- The verification of a method's code gives effects and depths iff its steps succeed. -/
theorem CodeCheck.exists_analyze_iff : (∃ r, k.analyze = .ok r) ↔
    ∃ effects, k.decode = .ok effects ∧ k.checkTargets effects = .ok () ∧ ∃ D, k.Consistent effects D := by
  constructor
  · rintro ⟨r, h⟩
    simp only [analyze, bind_eq_ok] at h
    obtain ⟨effects, hdecode, _, htargets, depths, hdepths, -⟩ := h
    exact ⟨effects, hdecode, htargets, (exists_checkStack_iff hdecode htargets).1 ⟨depths, hdepths⟩⟩
  · rintro ⟨effects, hdecode, htargets, hD⟩
    obtain ⟨depths, hdepths⟩ := (exists_checkStack_iff hdecode htargets).2 hD
    exact ⟨(effects, depths), bind_eq_ok.2 ⟨effects, hdecode, bind_eq_ok.2 ⟨(), htargets, bind_eq_ok.2 ⟨depths, hdepths, rfl⟩⟩⟩⟩

theorem Block.Every.stands {R : Instr → Prop} (h : code.Every R) {o : Nat} {i : Instr} (hi : code.Stands o i) : R i := by
  obtain ⟨before, after, heq, -⟩ := hi
  exact h i (Array.mem_toList_iff.1 (heq ▸ List.mem_append_right _ List.mem_cons_self))

namespace CodeCheck

/-- Accepted code of instructions stays within the limits. -/
theorem withinLimits (hcode : k.code = code.encode) (h : ∃ r, k.analyze = .ok r) :
    Instr.WithinLimits k.constants k.code := by
  obtain ⟨effects, hdecode, htargets, D, hD⟩ := exists_analyze_iff.1 h
  refine ⟨fun o s hmet hat => ?_, fun o n harrives => (hD.arrives hdecode htargets harrives).2.2⟩
  obtain ⟨i, hi, hslot⟩ : ∃ i, code.Stands o i ∧ (i = .load s ∨ i = .store s) := by
    rw [hcode] at hmet hat
    rcases Block.met_iff.1 hmet with rfl | ⟨i, hi⟩
    · simp [Block.at?_size] at hat
    · rw [hi.at?, Option.some.injEq, Option.some.injEq] at hat
      exact ⟨i, hi, hat⟩
  obtain ⟨e, he, -⟩ := decode_effects hcode hdecode hi
  have hlt : s < k.maxLocals := by
    rcases hslot with rfl | rfl
    all_goals
      simp only [effect] at he
      split at he
      · assumption
      · cases he
  have hlt : s.toNat < k.maxLocals.toNat := hlt
  have hmax := k.maxLocals.toNat_lt
  omega

/-- What is verified is orderly code of proper instructions, in a pool that did not overflow. The number of local variables
covers all slots but the last that there can be. -/
structure Written (k : CodeCheck) (code : Block) (p : Pool) (slots : Nat) : Prop where
  encoded : k.code = code.encode
  orderly : code.Orderly p
  constants : k.constants = p.constants
  overflowed : p.overflowed = false
  proper : code.Every (Instr.Proper k.constants slots k.returnsValue)
  locals : k.maxLocals.toNat = min slots 65535

namespace Written

variable (h : k.Written code p slots)
include h

theorem at? {o : Nat} {i : Instr} (hi : code.Stands o i) : Instr.at? k.code o = some i := h.encoded ▸ hi.at?

theorem exists_decode (hlimits : Instr.WithinLimits k.constants k.code) : ∃ effects, k.decode = .ok effects := by
  refine CodeCheck.exists_decode h.encoded fun o i hi => ?_
  have hproper := h.proper.stands hi
  refine exists_effect ⟨hproper.supplied, fun s hs => ?_, hproper.kind, hproper.result⟩ (h.orderly.lands o i hi).1
  have hmet : Instr.Met k.code o := h.encoded ▸ (h.orderly.met o).2 (.inr ⟨i, hi⟩)
  have hlt := hlimits.slots o s hmet (by rw [h.at? hi]; simpa using hs)
  have hslot := hproper.slot s hs
  rw [h.locals]
  omega

variable {effects : Array (Option Effect)} (hdecode : k.decode = .ok effects)
include hdecode

theorem size_effects : effects.size = code.size := by
  rw [(decode_sound hdecode).1, h.encoded, Block.encode, Block.size, codeSize_eq, List.size_toArray]

theorem stands {o : Nat} {e : Effect} (he : effects[o]? = some (some e)) : ∃ i, code.Stands o i ∧ k.effect o i = .ok e :=
  decode_stands h.encoded hdecode he

theorem checkTargets : k.checkTargets effects = .ok () := by
  refine checkTargets_of_onBoundary fun o e t he ht => ?_
  obtain ⟨i, hi, hei⟩ := h.stands hdecode he
  rw [target_of_effect hei] at ht
  rcases (h.orderly.lands o i hi).2 t ht with rfl | ⟨j, hj⟩
  · exact onBoundary_iff.2 (.inl (h.size_effects hdecode).symm)
  · obtain ⟨e', -, he'⟩ := decode_effects h.encoded hdecode hj
    exact onBoundary_iff.2 (.inr (by rw [he']; rfl))

/-- Wherever verification gets, the code gets, with the depth that balanced code has there. -/
theorem exists_depth : ∃ D : Nat → Option Nat, D 0 = some 0 ∧ D code.size = none ∧
    ∀ o, Reachable effects o → ∃ n, D o = some n ∧ Instr.Arrives k.constants k.code o n ∧
      ∀ e, effects[o]? = some (some e) → ∃ i, code.Stands o i ∧ i.moves? k.constants = some (e.pops, e.pushes) ∧
        successors o e = i.leads o ∧ e.pops ≤ n ∧ ∀ x ∈ i.leads o, D x = some (n - e.pops + e.pushes) := by
  obtain ⟨D, hstart, hend, hstep⟩ := h.orderly.balanced
  have hsucceed : ∀ {o n : Nat} {e : Effect}, D o = some n → effects[o]? = some (some e) → ∃ i, code.Stands o i ∧
      i.moves? k.constants = some (e.pops, e.pushes) ∧ successors o e = i.leads o ∧ e.pops ≤ n ∧
      ∀ x ∈ i.leads o, D x = some (n - e.pops + e.pushes) := by
    intro o n e hn he
    obtain ⟨i, hi, hei⟩ := h.stands hdecode he
    obtain ⟨pops, pushes, hmoves, hle, hleads⟩ := hstep o i n hi hn
    have hsame := moves?_of_effect hei
    rw [h.constants, hmoves.of_not_overflowed h.overflowed] at hsame
    cases hsame
    rw [Nat.zero_add] at hle
    rw [h.constants]
    exact ⟨i, hi, hmoves.of_not_overflowed h.overflowed, successors_eq_leads hei, hle, fun x hx => (hleads x hx).2⟩
  have hnext : ∀ {o x : Nat} {e : Effect}, (∃ n, D o = some n ∧ Instr.Arrives k.constants k.code o n) →
      effects[o]? = some (some e) → x ∈ successors o e → ∃ n, D x = some n ∧ Instr.Arrives k.constants k.code x n := by
    rintro o x e ⟨n, hn, ho⟩ he hx
    obtain ⟨i, hi, hmoves, hleads, -, hD⟩ := hsucceed hn he
    rw [hleads] at hx
    exact ⟨_, hD x hx, ho.lead (h.at? hi) hmoves hx⟩
  refine ⟨D, hstart, hend, fun o ho => ?_⟩
  obtain ⟨n, hn, harrives⟩ : ∃ n, D o = some n ∧ Instr.Arrives k.constants k.code o n := by
    induction ho with
    | start => exact ⟨0, hstart, .start⟩
    | branch _ he ht ih => exact hnext ih he (mem_successors.2 (.inl ht))
    | next _ he hterm ih => exact hnext ih he (mem_successors.2 (.inr ⟨hterm, rfl⟩))
  exact ⟨n, hn, harrives, fun e he => hsucceed hn he⟩

/-- The depths of balanced code that stays within the limits are consistent. -/
theorem exists_consistent (hlimits : Instr.WithinLimits k.constants k.code) : ∃ D, k.Consistent effects D := by
  obtain ⟨D, hstart, hend, hreach⟩ := h.exists_depth hdecode
  have hall : ∀ {o : Nat} {e : Effect}, Reachable effects o → effects[o]? = some (some e) →
      e.pops ≤ (D o).getD 0 ∧ (D o).getD 0 - e.pops + e.pushes ≤ maxStackDepth ∧
      ∀ x ∈ successors o e, (D x).getD 0 = (D o).getD 0 - e.pops + e.pushes := by
    intro o e ho he
    obtain ⟨n, hn, harrives, hsucceed⟩ := hreach o ho
    obtain ⟨i, hi, hmoves, hleads, hle, hD⟩ := hsucceed e he
    rw [hn, Option.getD_some, hleads]
    refine ⟨hle, ?_, fun x hx => by rw [hD x hx, Option.getD_some]⟩
    cases hto : i.leads o with
    | nil =>
      have hdepth := hlimits.depth o n harrives
      rw [Instr.pushes_of_leads hmoves hto]
      omega
    | cons x xs => exact hlimits.depth x _ (harrives.lead (h.at? hi) hmoves (hto ▸ List.mem_cons_self))
  refine ⟨fun o => (D o).getD 0, by rw [hstart]; rfl, fun o ho => ?_, fun o e ho he => (hall ho he).1,
    fun o e ho he => (hall ho he).2.1, fun o e t ho he ht => (hall ho he).2.2 t (mem_successors.2 (.inl ht)),
    fun o e ho he hterm => (hall ho he).2.2 _ (mem_successors.2 (.inr ⟨hterm, rfl⟩))⟩
  rw [← (decode_sound hdecode).1]
  rcases onBoundary_iff.1 (ho.onBoundary hdecode (h.checkTargets hdecode)) with rfl | hsome
  · -- Balanced code does not get to its end.
    obtain ⟨n, hn, -⟩ := hreach _ ho
    rw [h.size_effects hdecode, hend] at hn
    cases hn
  · by_contra hge
    rw [Array.getElem?_eq_none (by omega)] at hsome
    cases hsome

omit hdecode in
/-- Of orderly code of proper instructions verification asks only that it stays within the limits. -/
theorem exists_analyze_iff : (∃ r, k.analyze = .ok r) ↔ Instr.WithinLimits k.constants k.code := by
  refine ⟨withinLimits h.encoded, fun hlimits => ?_⟩
  obtain ⟨effects, hdecode⟩ := h.exists_decode hlimits
  exact CodeCheck.exists_analyze_iff.2 ⟨effects, hdecode, h.checkTargets hdecode, h.exists_consistent hdecode hlimits⟩

end Written

end CodeCheck

end Orderly

end ClassTree
