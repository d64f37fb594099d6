import ClassTree.Code.Block
import ClassTree.Proofs.Verify.Depths

/-!
# Blocks of code in place

`Block.At b code o`: the bytes of the block `b` stand at the offset `o` of a code array. A block that is put together from
others is in place only if these are, each behind the one before it (`Block.At.append`), and a single instruction in place
is the one that is read there (`Block.At.one`).
-/

namespace ClassTree

/-! ## Sizes -/

theorem codeSize_eq (is : Array Instr) : codeSize is = (encodeCode is).length := by
  have h : ∀ (l : List Instr) (n : Nat), l.foldl (fun n i => n + i.size) n = n + (l.flatMap Instr.encode).length := by
    intro l
    induction l with
    | nil => simp
    | cons i l ih =>
      intro n
      rw [List.foldl_cons, ih, List.flatMap_cons, List.length_append, Instr.length_encode]
      omega
  rw [codeSize, encodeCode, ← Array.foldl_toList, h, Nat.zero_add]

namespace Block

theorem encodeCode_append (a b : Block) :
    encodeCode (a ++ b).instrs = encodeCode a.instrs ++ encodeCode b.instrs := by
  change encodeCode (a.instrs ++ b.instrs) = _
  simp [encodeCode]

@[simp] theorem size_empty : empty.size = 0 := rfl

@[simp] theorem size_one (i : Instr) : (one i).size = i.size := by
  simp [size, one, codeSize]

@[simp] theorem size_append (a b : Block) : (a ++ b).size = a.size + b.size := by
  simp only [size, codeSize_eq, encodeCode_append, List.length_append]

@[simp] theorem overflowed_append (a b : Block) : (a ++ b).overflowed = (a.overflowed || b.overflowed) := rfl

theorem append_assoc (a b c : Block) : a ++ b ++ c = a ++ (b ++ c) := by
  change Block.mk (a.instrs ++ b.instrs ++ c.instrs) (a.overflowed || b.overflowed || c.overflowed) =
    Block.mk (a.instrs ++ (b.instrs ++ c.instrs)) (a.overflowed || (b.overflowed || c.overflowed))
  rw [Array.append_assoc, Bool.or_assoc]

theorem append_empty (a : Block) : a ++ empty = a := by
  change Block.mk (a.instrs ++ #[]) (a.overflowed || false) = a
  rw [Array.append_empty, Bool.or_false]

theorem empty_append (a : Block) : empty ++ a = a := by
  change Block.mk (#[] ++ a.instrs) (false || a.overflowed) = a
  rw [Array.empty_append, Bool.false_or]

theorem size_jumpBy {jump : UInt16 → Instr} (hjump : ∀ w, (jump w).size = jumpSize) (n : Nat) :
    (jumpBy jump n).size = jumpSize := by
  unfold jumpBy
  split
  · rw [size_one, hjump]
  · exact (size_one (jump 0)).trans (hjump 0)

theorem jumpBy_of_not_overflowed {jump : UInt16 → Instr} {n : Nat} (h : (jumpBy jump n).overflowed = false) :
    n < 65536 ∧ jumpBy jump n = one (jump n.toUInt16) := by
  unfold jumpBy at h ⊢
  split
  · rename_i hn
    exact ⟨hn, rfl⟩
  · rename_i hn
    rw [if_neg hn] at h
    cases h

/-! ## Blocks in place -/

/-- The bytes of the block stand at an offset of a code array. -/
def At (b : Block) (code : Array UInt8) (o : Nat) : Prop :=
  ∃ before after, code.toList = before ++ encodeCode b.instrs ++ after ∧ before.length = o

variable {a b : Block} {code : Array UInt8} {o : Nat}

/-- A block is in place in its own code. -/
theorem at_encode (b : Block) : b.At b.encode 0 := ⟨[], [], by simp [encode], rfl⟩

theorem At.append (h : (a ++ b).At code o) : a.At code o ∧ b.At code (o + a.size) := by
  obtain ⟨before, after, hcode, hlen⟩ := h
  rw [encodeCode_append] at hcode
  refine ⟨⟨before, encodeCode b.instrs ++ after, ?_, hlen⟩, ⟨before ++ encodeCode a.instrs, after, ?_, ?_⟩⟩
  · rw [hcode]
    simp
  · rw [hcode]
    simp
  · rw [List.length_append, hlen, size, codeSize_eq]

theorem At.get? (h : b.At code o) {j : Nat} {x : UInt8} (hx : (encodeCode b.instrs)[j]? = some x) :
    code[o + j]? = some x := by
  obtain ⟨before, after, hcode, rfl⟩ := h
  have hj : j < (encodeCode b.instrs).length := (List.getElem?_eq_some_iff.1 hx).1
  rw [← Array.getElem?_toList, hcode, List.append_assoc, List.getElem?_append_right (by omega),
    Nat.add_sub_cancel_left, List.getElem?_append_left hj, hx]

end Block

/-! ## Instructions in place -/

theorem wordOfBytes_wordBytes (w : UInt16) : wordOfBytes (w >>> 8).toUInt8 w.toUInt8 = w := by
  have hw : w.toNat < 65536 := w.toNat_lt
  have h8 : UInt16.toNat 8 % 16 = 8 := rfl
  have hlow : w.toNat % 256 < 2 ^ 8 := Nat.mod_lt _ (by decide)
  apply UInt16.toNat_inj.1
  simp only [wordOfBytes, UInt16.toNat_or, UInt16.toNat_shiftLeft, UInt8.toNat_toUInt16, UInt16.toNat_toUInt8,
    UInt16.toNat_shiftRight, h8]
  rw [Nat.mod_eq_of_lt (a := _ <<< 8), ← Nat.shiftLeft_add_eq_or_of_lt hlow]
  · simp only [Nat.shiftLeft_eq, Nat.shiftRight_eq_div_pow]
    omega
  · simp only [Nat.shiftLeft_eq, Nat.shiftRight_eq_div_pow]
    omega

theorem wordAt?_eq_some {code : Array UInt8} {o : Nat} {w : UInt16} (h : ∀ j x, (wordBytes w)[j]? = some x →
    code[o + j]? = some x) : wordAt? code o = some w := by
  have hhi : code[o]? = some (w >>> 8).toUInt8 := h 0 _ rfl
  have hlo : code[o + 1]? = some w.toUInt8 := h 1 _ rfl
  rw [wordAt?, hhi, hlo]
  simp only [wordOfBytes_wordBytes]

/-- The operands of an instruction are read back. -/
theorem Instr.withOperands?_eq_some {code : Array UInt8} {o : Nat} (i : Instr)
    (h : ∀ j x, i.operands[j]? = some x → code[o + j]? = some x) : withOperands? code o i.opcode = some i := by
  have hword : ∀ {w : UInt16} {f : UInt16 → Instr}, i.operands = wordBytes w →
      withOperands?.word code o f = some (f w) := by
    intro w f hw
    rw [hw] at h
    rw [withOperands?.word, wordAt?_eq_some h]
    rfl
  cases i with
  | ldc w | load w | store w | new w | jump w | jumpIfFalse w | loop w => exact hword rfl
  | field a w => cases a <;> exact hword rfl
  | fieldDyn a w => cases a <;> exact hword rfl
  | invoke k w => cases k <;> exact hword rfl
  | invokeDynamic w argc | invokeSpecialDyn w argc =>
    have hw : wordAt? code o = some w := by
      refine wordAt?_eq_some fun j x hx => h j x ?_
      rw [operands, List.getElem?_append_left (List.getElem?_eq_some_iff.1 hx).1, hx]
    have hargc : code[o + 2]? = some argc := h 2 _ rfl
    simp [opcode, withOperands?, hw, hargc]
  | invokeStaticDyn w v argc =>
    have hw : wordAt? code o = some w := by
      refine wordAt?_eq_some fun j x hx => h j x ?_
      rw [operands, List.append_assoc, List.getElem?_append_left (List.getElem?_eq_some_iff.1 hx).1, hx]
    have hv : wordAt? code (o + 2) = some v := by
      refine wordAt?_eq_some fun j x hx => ?_
      rw [Nat.add_assoc]
      refine h (2 + j) x ?_
      rw [operands, List.append_assoc, List.getElem?_append_right (by simp [wordBytes]),
        List.getElem?_append_left (by simpa [wordBytes] using (List.getElem?_eq_some_iff.1 hx).1)]
      simpa [wordBytes] using hx
    have hargc : code[o + 4]? = some argc := h 4 _ rfl
    simp [opcode, withOperands?, hw, hv, hargc]
  | push k => cases k <;> rfl
  | arith op => cases op <;> rfl
  | widen w => cases w <;> rfl
  | compare op => cases op <;> rfl
  | _ => rfl

namespace Block

variable {a b c : Block} {code : Array UInt8} {o : Nat} {i : Instr}

/-- A single instruction in place is the one that is read there. -/
theorem At.one (h : (one i).At code o) : Instr.at? code o = some i := by
  have hcode : encodeCode (Block.one i).instrs = i.opcode.toByte :: i.operands := by
    simp [encodeCode, Block.one, Instr.encode]
  have hop : code[o]? = some i.opcode.toByte := h.get? (j := 0) (by rw [hcode]; rfl)
  have hoperands : ∀ j x, i.operands[j]? = some x → code[o + 1 + j]? = some x := by
    intro j x hx
    have := h.get? (j := j + 1) (x := x) (by rw [hcode]; exact hx)
    rwa [show o + 1 + j = o + (j + 1) by omega]
  simp [Instr.at?, hop, Opcode.ofByte?_toByte, Instr.withOperands?_eq_some i hoperands]

/-- A jump in place leads over as many bytes as it was made for. -/
theorem At.jumpBy {jump : UInt16 → Instr} {n : Nat} (h : (jumpBy jump n).At code o)
    (hover : (Block.jumpBy jump n).overflowed = false) :
    ∃ w : UInt16, w.toNat = n ∧ Instr.at? code o = some (jump w) := by
  obtain ⟨hn, heq⟩ := jumpBy_of_not_overflowed hover
  rw [heq] at h
  exact ⟨n.toUInt16, UInt16.toNat_ofNat_of_lt hn, h.one⟩

theorem size_jump (n : Nat) : (Block.jumpBy .jump n).size = jumpSize := size_jumpBy (fun _ => rfl) n
theorem size_jumpIfFalse (n : Nat) : (Block.jumpBy .jumpIfFalse n).size = jumpSize := size_jumpBy (fun _ => rfl) n
theorem size_loop (n : Nat) : (Block.jumpBy .loop n).size = jumpSize := size_jumpBy (fun _ => rfl) n

theorem size_ifThen (a b : Block) : (ifThen a b).size = a.size + jumpSize + b.size := by
  simp only [Block.ifThen, size_append, size_jumpIfFalse]

theorem size_ifElse (a b c : Block) : (ifElse a b c).size = a.size + jumpSize + b.size + jumpSize + c.size := by
  simp only [Block.ifElse, size_append, size_jumpIfFalse, size_jump]

theorem size_repeatWhile (a b : Block) : (repeatWhile a b).size = a.size + jumpSize + b.size + jumpSize := by
  simp only [Block.repeatWhile, size_append, size_jumpIfFalse, size_loop]

end Block

end ClassTree
