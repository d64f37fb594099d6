import ClassTree.Proofs.Verify.Depths

/-!
# The check of the stack is exact

* `Reachable effects o`: control can get from the start of the code to the offset `o`.
* `Consistent c effects D`: the depths `D` are right for every offset that can be reached.
* In code that decodes and whose jumps lead to instructions, control gets to instructions or to the end of the code, but
  never between two (`Reachable.onBoundary`).
* The check of the stack ends, in whatever order it takes the offsets to be visited, and succeeds iff consistent depths
  exist (`checkStack_exact`).
-/

namespace ClassTree

/-! ## What follows an instruction -/

theorem wordAt?_bound {code : Array UInt8} {o : Nat} {w : UInt16} (h : wordAt? code o = some w) :
    o + 2 ≤ code.size := by
  unfold wordAt? at h
  split at h
  · rename_i hlo
    have hlt := (Array.getElem?_eq_some_iff.1 hlo).1
    omega
  · cases h

/-- An instruction that is read has the code that it was read for, and its operands are inside the code array. -/
theorem Instr.withOperands?_bound {code : Array UInt8} {o : Nat} {op : Opcode} {i : Instr}
    (h : withOperands? code o op = some i) (ho : o ≤ code.size) :
    i.opcode = op ∧ o + op.operandSize ≤ code.size := by
  have hword : ∀ {f : UInt16 → Instr}, withOperands?.word code o f = some i → (∃ w, i = f w) ∧ o + 2 ≤ code.size := by
    intro f hf
    obtain ⟨w, hw, rfl⟩ := Option.map_eq_some_iff.1 hf
    exact ⟨⟨w, rfl⟩, wordAt?_bound hw⟩
  have hbyte : ∀ {j : Nat} {x : UInt8}, code[j]? = some x → j + 1 ≤ code.size := fun hx =>
    (Array.getElem?_eq_some_iff.1 hx).1
  cases op with
  | ldc | load | store | getField | putField | getFieldDyn | putFieldDyn | new | invokeVirtual | invokeSpecial
  | invokeStatic | jump | jumpIfFalse | loop =>
    obtain ⟨⟨w, rfl⟩, hsize⟩ := hword h
    exact ⟨rfl, hsize⟩
  | invokeDynamic | invokeSpecialDyn =>
    obtain ⟨w, -, h⟩ := Option.bind_eq_some_iff.1 h
    obtain ⟨argc, hargc, h⟩ := Option.bind_eq_some_iff.1 h
    cases h
    exact ⟨rfl, hbyte hargc⟩
  | invokeStaticDyn =>
    obtain ⟨w, -, h⟩ := Option.bind_eq_some_iff.1 h
    obtain ⟨v, -, h⟩ := Option.bind_eq_some_iff.1 h
    obtain ⟨argc, hargc, h⟩ := Option.bind_eq_some_iff.1 h
    cases h
    exact ⟨rfl, hbyte hargc⟩
  | _ =>
    cases h
    exact ⟨rfl, ho⟩

namespace CodeCheck

variable {c : CodeCheck} {effects : Array (Option Effect)}

/-- An effect names the code of its instruction. -/
theorem op_of_effect {o : Nat} {i : Instr} {e : Effect} (h : c.effect o i = .ok e) : e.op = i.opcode := by
  cases i with
  | field access ref =>
    obtain ⟨-, -, h⟩ := bind_eq_ok.1 h
    cases access <;> (cases h; rfl)
  | fieldDyn access name =>
    obtain ⟨-, -, h⟩ := bind_eq_ok.1 h
    cases access <;> (cases h; rfl)
  | invoke kind ref =>
    simp only [effect, bind_eq_ok] at h
    obtain ⟨_, _, _, _, h⟩ := h
    split at h
    · cases h
    · cases h
      rfl
  | new | invokeDynamic | invokeSpecialDyn =>
    obtain ⟨-, -, h⟩ := bind_eq_ok.1 h
    cases h
    rfl
  | invokeStaticDyn =>
    obtain ⟨-, -, h⟩ := bind_eq_ok.1 h
    obtain ⟨-, -, h⟩ := bind_eq_ok.1 h
    cases h
    rfl
  | ldc | load | store | loop | ret =>
    simp only [effect] at h
    split at h <;> first | (cases h; rfl) | cases h
  | _ =>
    cases h
    rfl

theorem mem_successors {o s : Nat} {e : Effect} :
    s ∈ successors o e ↔ e.target = some s ∨ e.op.isTerminator = false ∧ s = o + 1 + e.op.operandSize := by
  unfold successors
  cases e.op.isTerminator <;> simp [Option.mem_toList, eq_comm]

/-! ## Boundaries -/

theorem onBoundary_iff {t : Nat} : onBoundary effects t = true ↔ t = effects.size ∨ (effects[t]?.join).isSome = true := by
  simp [onBoundary]

/-- While code is decoded: where the next instruction begins, and where one has been decoded. -/
def Begins (done : Array (Option Effect)) (offset t : Nat) : Prop := t = offset ∨ (done[t]?.join).isSome = true

theorem Begins.set {done : Array (Option Effect)} {offset t : Nat} (h : Begins done offset t) (e : Effect)
    (hoffset : offset < done.size) (next : Nat) : Begins (done.setIfInBounds offset (some e)) next t := by
  right
  rw [Array.getElem?_setIfInBounds]
  by_cases heq : offset = t
  · rw [if_pos heq, if_pos hoffset]
    rfl
  · rw [if_neg heq]
    exact h.resolve_left (Ne.symm heq)

theorem Begins.onBoundary {done : Array (Option Effect)} {t : Nat} (h : Begins done done.size t) :
    onBoundary done t = true := onBoundary_iff.2 h

/-- Behind an instruction that was decoded another begins, or the code ends. -/
theorem decodeFrom_begins {fuel offset : Nat} {done final : Array (Option Effect)}
    (h : c.decodeFrom fuel offset done = .ok final) (hsize : done.size = c.code.size) (hoffset : offset ≤ c.code.size)
    (hfuel : c.code.size ≤ offset + fuel)
    (hdone : ∀ o e, done[o]? = some (some e) → Begins done offset (o + 1 + e.op.operandSize)) :
    (∀ t, Begins done offset t → onBoundary final t = true) ∧
      ∀ o e, final[o]? = some (some e) → onBoundary final (o + 1 + e.op.operandSize) = true := by
  induction fuel generalizing offset done with
  | zero =>
    cases h
    obtain rfl : offset = final.size := by omega
    exact ⟨fun t ht => ht.onBoundary, fun o e he => (hdone o e he).onBoundary⟩
  | succ fuel ih =>
    rw [decodeFrom] at h
    split at h
    · rename_i hnone
      cases h
      rw [Array.getElem?_eq_none_iff] at hnone
      obtain rfl : offset = final.size := by omega
      exact ⟨fun t ht => ht.onBoundary, fun o e he => (hdone o e he).onBoundary⟩
    · rename_i b hb
      have hlt : offset < c.code.size := (Array.getElem?_eq_some_iff.1 hb).1
      split at h
      · cases h
      · split at h
        · cases h
        · rename_i op hop i hi
          obtain ⟨e, he, h⟩ := bind_eq_ok.1 h
          obtain ⟨hcode, hbound⟩ := Instr.withOperands?_bound hi hlt
          have hi' : offset + i.size = offset + 1 + e.op.operandSize := by
            rw [op_of_effect he, Instr.size, Nat.add_assoc]
          have hnext : ∀ o e', (done.setIfInBounds offset (some e))[o]? = some (some e') →
              Begins (done.setIfInBounds offset (some e)) (offset + i.size) (o + 1 + e'.op.operandSize) := by
            intro o e' ho
            rw [Array.getElem?_setIfInBounds] at ho
            split at ho
            · rename_i heq
              subst heq
              rw [if_pos (by omega)] at ho
              cases ho
              exact .inl hi'.symm
            · exact (hdone o e' ho).set e (by omega) _
          obtain ⟨hbegins, hfinal⟩ := ih h (by rw [Array.size_setIfInBounds, hsize])
            (by rw [Instr.size, hcode]; omega) (by omega) hnext
          exact ⟨fun t ht => hbegins t (ht.set e (by omega) _), hfinal⟩

theorem decode_begins (h : c.decode = .ok effects) :
    onBoundary effects 0 = true ∧
      ∀ o e, effects[o]? = some (some e) → onBoundary effects (o + 1 + e.op.operandSize) = true := by
  obtain ⟨hbegins, hfinal⟩ := decodeFrom_begins h (by simp) (by omega) (by omega) fun o e he => by
    rw [Array.getElem?_replicate] at he
    split at he <;> cases he
  exact ⟨hbegins 0 (.inl rfl), hfinal⟩

theorem onBoundary_of_checkTargetsFrom {es : List (Option Effect)} {offset : Nat}
    (h : c.checkTargetsFrom effects offset es = .ok ()) {e : Effect} (he : some e ∈ es) {t : Nat}
    (ht : e.target = some t) : onBoundary effects t = true := by
  induction es generalizing offset with
  | nil => cases he
  | cons e' es ih =>
    rw [checkTargetsFrom] at h
    split at h
    · rename_i target htarget
      split at h
      · rename_i hon
        rcases List.mem_cons.1 he with rfl | he
        · obtain rfl : t = target := Option.some.inj (ht.symm.trans htarget)
          exact hon
        · exact ih h he
      · cases h
    · rename_i hnone
      rcases List.mem_cons.1 he with rfl | he
      · rw [Option.bind_some, ht] at hnone
        cases hnone
      · exact ih h he

/-- Every jump of checked code leads to an instruction or to the end of the code. -/
theorem onBoundary_of_checkTargets (h : c.checkTargets effects = .ok ()) {o t : Nat} {e : Effect}
    (he : effects[o]? = some (some e)) (ht : e.target = some t) : onBoundary effects t = true :=
  onBoundary_of_checkTargetsFrom h (Array.mem_toList_iff.2 (Array.mem_of_getElem? he)) ht

/-! ## What can be reached -/

/-- The offsets to which control can get from the start: by jumps, and behind instructions that let it go on. -/
inductive Reachable (effects : Array (Option Effect)) : Nat → Prop
  | start : Reachable effects 0
  | branch {o t : Nat} {e : Effect} (h : Reachable effects o) (he : effects[o]? = some (some e))
      (ht : e.target = some t) : Reachable effects t
  | next {o : Nat} {e : Effect} (h : Reachable effects o) (he : effects[o]? = some (some e))
      (hterm : e.op.isTerminator = false) : Reachable effects (o + 1 + e.op.operandSize)

/-- Depths that are right for every offset that can be reached: it is inside the code, the instruction there finds what it
takes, and control goes on from it with the depth that it leaves, which is not too great. -/
structure Consistent (c : CodeCheck) (effects : Array (Option Effect)) (D : Nat → Nat) : Prop where
  start : D 0 = 0
  inside : ∀ o, Reachable effects o → o < c.code.size
  supplied : ∀ o e, Reachable effects o → effects[o]? = some (some e) → e.pops ≤ D o
  bounded : ∀ o e, Reachable effects o → effects[o]? = some (some e) → D o - e.pops + e.pushes ≤ maxStackDepth
  branch : ∀ o e t, Reachable effects o → effects[o]? = some (some e) → e.target = some t →
    D t = D o - e.pops + e.pushes
  next : ∀ o e, Reachable effects o → effects[o]? = some (some e) → e.op.isTerminator = false →
    D (o + 1 + e.op.operandSize) = D o - e.pops + e.pushes

/-- Control never gets between two instructions. -/
theorem Reachable.onBoundary (hdecode : c.decode = .ok effects) (htargets : c.checkTargets effects = .ok ()) {o : Nat}
    (h : Reachable effects o) : onBoundary effects o = true := by
  obtain ⟨hstart, hnext⟩ := decode_begins hdecode
  cases h with
  | start => exact hstart
  | branch h he ht => exact onBoundary_of_checkTargets htargets he ht
  | next h he hterm => exact hnext _ _ he

theorem Reachable.successor {o s : Nat} {e : Effect} (h : Reachable effects o) (he : effects[o]? = some (some e))
    (hs : s ∈ successors o e) : Reachable effects s := by
  rcases mem_successors.1 hs with ht | ⟨hterm, rfl⟩
  · exact h.branch he ht
  · exact h.next he hterm

/-- Depths that fit and begin with 0 are given to all that can be reached. -/
theorem Fits.exists_depth {D : Nat → Option Nat} (hD : Fits effects D) (h0 : D 0 = some 0) {o : Nat}
    (h : Reachable effects o) : ∃ d, D o = some d := by
  induction h with
  | start => exact ⟨0, h0⟩
  | @branch o t e h he ht ih =>
    obtain ⟨d, hd⟩ := ih
    obtain ⟨e', he', -, -, hsucc⟩ := hD o d hd
    rw [he] at he'
    cases he'
    exact ⟨_, hsucc t (mem_successors.2 (.inl ht))⟩
  | @next o e h he hterm ih =>
    obtain ⟨d, hd⟩ := ih
    obtain ⟨e', he', -, -, hsucc⟩ := hD o d hd
    rw [he] at he'
    cases he'
    exact ⟨_, hsucc _ (mem_successors.2 (.inr ⟨hterm, rfl⟩))⟩

/-- Depths that fit and begin with 0 are consistent. -/
theorem Fits.consistent {D : Nat → Option Nat} (hD : Fits effects D) (h0 : D 0 = some 0)
    (hsize : effects.size = c.code.size) : c.Consistent effects fun o => (D o).getD 0 := by
  -- What fits says of an offset that can be reached, with the effect found there.
  have hkey : ∀ o, Reachable effects o → ∃ d e, D o = some d ∧ effects[o]? = some (some e) ∧ e.pops ≤ d ∧
      d - e.pops + e.pushes ≤ maxStackDepth ∧ ∀ s ∈ successors o e, D s = some (d - e.pops + e.pushes) := by
    intro o ho
    obtain ⟨d, hd⟩ := hD.exists_depth h0 ho
    obtain ⟨e, he, h⟩ := hD o d hd
    exact ⟨d, e, hd, Option.join_eq_some_iff.1 he, h⟩
  have hat : ∀ o e, Reachable effects o → effects[o]? = some (some e) → e.pops ≤ (D o).getD 0 ∧
      (D o).getD 0 - e.pops + e.pushes ≤ maxStackDepth ∧
      ∀ s ∈ successors o e, (D s).getD 0 = (D o).getD 0 - e.pops + e.pushes := by
    intro o e ho he
    obtain ⟨d, e', hd, he', hpops, hmax, hsucc⟩ := hkey o ho
    rw [he] at he'
    cases he'
    rw [hd]
    exact ⟨hpops, hmax, fun s hs => by rw [hsucc s hs]; rfl⟩
  refine ⟨by rw [h0]; rfl, fun o ho => ?_, fun o e ho he => (hat o e ho he).1, fun o e ho he => (hat o e ho he).2.1,
    fun o e t ho he ht => (hat o e ho he).2.2 t (mem_successors.2 (.inl ht)),
    fun o e ho he hterm => (hat o e ho he).2.2 _ (mem_successors.2 (.inr ⟨hterm, rfl⟩))⟩
  obtain ⟨d, e, -, he, -⟩ := hkey o ho
  rw [← hsize]
  exact (Array.getElem?_eq_some_iff.1 he).1

open Classical in
/-- Consistent depths, of what can be reached, fit. -/
theorem Consistent.fits {D : Nat → Nat} (h : c.Consistent effects D) (hdecode : c.decode = .ok effects)
    (htargets : c.checkTargets effects = .ok ()) :
    Fits effects fun o => if Reachable effects o then some (D o) else none := by
  intro o d hd
  dsimp only at hd
  split at hd
  · rename_i ho
    cases hd
    have hin := h.inside o ho
    rw [← (decode_sound hdecode).1] at hin
    rcases onBoundary_iff.1 (ho.onBoundary hdecode htargets) with heq | hsome
    · omega
    · obtain ⟨e, he⟩ := Option.isSome_iff_exists.1 hsome
      have he' := Option.join_eq_some_iff.1 he
      refine ⟨e, he, h.supplied o e ho he', h.bounded o e ho he', fun s hs => ?_⟩
      dsimp only
      rw [if_pos (ho.successor he' hs)]
      rcases mem_successors.1 hs with ht | ⟨hterm, rfl⟩
      · rw [h.branch o e s ho he' ht]
      · rw [h.next o e ho he' hterm]
  · cases hd

/-- The check of the stack succeeds iff there are consistent depths. -/
theorem exists_checkStack_iff (hdecode : c.decode = .ok effects) (htargets : c.checkTargets effects = .ok ()) :
    (∃ depths, c.checkStack effects = .ok depths) ↔ ∃ D, c.Consistent effects D := by
  constructor
  · rintro ⟨depths, hdepths⟩
    obtain ⟨hfits, h0⟩ := checkStack_sound hdepths
    exact ⟨_, hfits.consistent h0 (decode_sound hdecode).1⟩
  · rintro ⟨D, hD⟩
    refine checkStack_complete (hD.fits hdecode htargets) ?_
    rw [if_pos .start, hD.start]

/-- The check of the stack is exact. It ends however it takes the offsets to be visited, and no fuel changes what it
gives; it succeeds iff there are consistent depths; and what it ends with is the same in every order. -/
theorem checkStack_exact (hdecode : c.decode = .ok effects) (htargets : c.checkTargets effects = .ok ()) :
    (WellFounded fun w' w => Walk.Step effects w w') ∧
      (∀ fuel, 2 * effects.size + 2 ≤ fuel →
        c.walk effects fuel [(0, 0)] (Array.replicate effects.size none) = c.checkStack effects) ∧
      ((∃ depths, c.checkStack effects = .ok depths) ↔ ∃ D, c.Consistent effects D) ∧
      ∀ r, Walk.Ends effects (.start effects) r ↔ r = (c.checkStack effects).toOption := by
  refine ⟨Walk.wellFounded_step, fun fuel hfuel => ?_, exists_checkStack_iff hdecode htargets,
    fun r => ⟨fun h => h.unique ends_checkStack, ?_⟩⟩
  · exact walk_fuel (w := .start effects) (by rw [Walk.stepsLeft_start]; omega) hfuel
  · rintro rfl
    exact ends_checkStack

/-- A method of no name and without constants or local variables, which gives no value. -/
def ofBytes (code : Array UInt8) : CodeCheck where
  constants := #[]
  method := ""
  maxLocals := 0
  code
  returnsValue := false

/-- Code with a loop back to its start and a way out, which is accepted, and one whose loop puts a value on the stack each
time, which is not. -/
theorem checkStack_exact_loops :
    (∃ effects, (ofBytes #[2, 40, 0, 3, 41, 0, 7, 43]).decode = .ok effects ∧
      (ofBytes #[2, 40, 0, 3, 41, 0, 7, 43]).checkTargets effects = .ok () ∧
      ∃ D, (ofBytes #[2, 40, 0, 3, 41, 0, 7, 43]).Consistent effects D) ∧
    ∃ effects, (ofBytes #[2, 41, 0, 4]).decode = .ok effects ∧
      (ofBytes #[2, 41, 0, 4]).checkTargets effects = .ok () ∧
      ¬ ∃ D, (ofBytes #[2, 41, 0, 4]).Consistent effects D := by
  refine ⟨⟨_, rfl, rfl, ?_⟩, _, rfl, rfl, ?_⟩
  · exact (checkStack_exact rfl rfl).2.2.1.1 ⟨_, rfl⟩
  · intro h
    obtain ⟨depths, hdepths⟩ := (checkStack_exact rfl rfl).2.2.1.2 h
    cases hdepths

end CodeCheck

end ClassTree
