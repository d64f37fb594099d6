import ClassTree.Code.Emitter
import ClassTree.Proofs.Code.Decoded

/-!
# What an emitter writes

`Emitter.Call` is what can be asked of an emitter, and `Emitter.run` does one call after the other. A call that has nothing to do
with jumps, and that gives each operation code the operands that go with it, writes whole instructions, those of its operation
codes (`Emitter.exists_wrote`). From code that is made of whole instructions the list of the operation codes is read back
(`Opcode.list_flatMap_encode`).
-/

namespace ClassTree

/-! ## Operation codes in code -/

theorem Opcode.listFrom_flatMap_encode {code : Array UInt8} {before : List UInt8} {is : List Instr}
    (h : code.toList = before ++ is.flatMap Instr.encode) (acc : Array Opcode) :
    (listFrom code before.length acc).toList = acc.toList ++ is.map Instr.opcode := by
  have hsize : code.size = before.length + (is.flatMap Instr.encode).length := by
    rw [← Array.length_toList, h, List.length_append]
  induction is generalizing before acc with
  | nil =>
    rw [listFrom, dif_neg (by simp at hsize; omega)]
    simp
  | cons i is ih =>
    have hlt : before.length < code.size := by
      have := i.size_pos
      rw [List.flatMap_cons, List.length_append, Instr.length_encode] at hsize
      omega
    have hbyte : code[before.length] = i.opcode.toByte := by
      refine Option.some.inj ?_
      rw [← Array.getElem?_eq_getElem, ← Array.getElem?_toList, h]
      simp [Instr.encode]
    have hbehind : before.length + 1 + i.opcode.operandSize = (before ++ i.encode).length := by
      rw [List.length_append, Instr.length_encode, Instr.size, Nat.add_assoc]
    rw [listFrom, dif_pos hlt, hbyte, ofByte?_toByte]
    dsimp only
    rw [hbehind, ih (by rw [h]; simp) _ (by rw [hsize]; simp [Nat.add_assoc])]
    simp

/-- The operation codes of whole instructions are listed in order. -/
theorem Opcode.list_flatMap_encode {code : Array UInt8} {is : List Instr} (h : code.toList = is.flatMap Instr.encode) :
    list code = is.map Instr.opcode :=
  listFrom_flatMap_encode (show code.toList = [] ++ is.flatMap Instr.encode from h) #[]

namespace Instr

/-- Each operation code without operands is an instruction. -/
theorem exists_bare {op : Opcode} (h : op.operandSize = 0) : ∃ i : Instr, i.encode = [op.toByte] ∧ i.opcode = op := by
  obtain ⟨i, -, hi⟩ : ∃ i, withOperands? #[] 0 op = some i ∧ i.operands = [] ∧ i.opcode = op := by
    cases op <;> first | exact ⟨_, rfl, rfl, rfl⟩ | cases h
  exact ⟨i, by rw [encode, hi.1, hi.2], hi.2⟩

/-- Each operation code that takes a word is an instruction together with one. -/
theorem exists_withWord {op : Opcode} (h : op.operandSize = 2) (w : UInt16) :
    ∃ i : Instr, i.encode = op.toByte :: wordBytes w ∧ i.opcode = op := by
  have hword : ∀ f : UInt16 → Instr, withOperands?.word (wordBytes w).toArray 0 f = some (f w) := by
    intro f
    rw [withOperands?.word, wordAt?_eq_some (w := w) fun j x hx => by rw [Nat.zero_add, ← hx]; simp]
    rfl
  obtain ⟨i, -, hi⟩ : ∃ i, withOperands? (wordBytes w).toArray 0 op = some i ∧
      i.operands = wordBytes w ∧ i.opcode = op := by
    cases op <;> first | exact ⟨_, hword _, rfl, rfl⟩ | cases h
  exact ⟨i, by rw [encode, hi.1, hi.2], hi.2⟩

end Instr

/-! ## Writing -/

namespace Buffer

variable {b c d : Buffer} {is js : List Instr}

/-- The second buffer is the first with instructions behind its code. -/
structure Wrote (b : Buffer) (is : List Instr) (c : Buffer) : Prop where
  code : c.code.toList = b.code.toList ++ is.flatMap Instr.encode
  overflowed : c.overflowed = b.overflowed

theorem Wrote.refl (b : Buffer) : b.Wrote [] b := ⟨by simp, rfl⟩

@[simp] theorem toList_writeByte (b : Buffer) (x : UInt8) : (b.writeByte x).code.toList = b.code.toList ++ [x] :=
  Array.toList_push

theorem toList_writeWord (b : Buffer) (w : UInt16) : (b.writeWord w).code.toList = b.code.toList ++ wordBytes w := by
  simp [writeWord, wordBytes]

theorem toList_writeOp (b : Buffer) (op : Opcode) : (b.writeOp op).code.toList = b.code.toList ++ [op.toByte] :=
  toList_writeByte b _

theorem foldl_writeByte (b : Buffer) (bytes : List UInt8) :
    (bytes.foldl writeByte b).code.toList = b.code.toList ++ bytes ∧ (bytes.foldl writeByte b).overflowed = b.overflowed := by
  induction bytes generalizing b with
  | nil => exact ⟨by simp, rfl⟩
  | cons x bytes ih =>
    obtain ⟨hcode, hover⟩ := ih (b.writeByte x)
    exact ⟨by rw [List.foldl_cons, hcode]; simp, hover⟩

theorem size_eq (b : Buffer) : b.size = b.code.toList.length := Array.length_toList.symm

theorem Wrote.size (h : b.Wrote is c) : c.size = b.size + (is.flatMap Instr.encode).length := by
  rw [size_eq, size_eq, h.code, List.length_append]

theorem wrote_op (b : Buffer) {op : Opcode} (h : op.operandSize = 0) :
    ∃ i : Instr, i.opcode = op ∧ b.Wrote [i] (b.writeOp op) := by
  obtain ⟨i, hencode, hop⟩ := Instr.exists_bare h
  exact ⟨i, hop, by rw [toList_writeOp, List.flatMap_singleton, hencode], rfl⟩

theorem toList_writeWith (b : Buffer) (op : Opcode) (w : UInt16) :
    ((b.writeOp op).writeWord w).code.toList = b.code.toList ++ op.toByte :: wordBytes w := by
  rw [toList_writeWord, toList_writeOp, List.append_assoc, List.singleton_append]

theorem wrote_word (b : Buffer) {op : Opcode} (h : op.operandSize = 2) (w : UInt16) :
    ∃ i : Instr, i.opcode = op ∧ b.Wrote [i] ((b.writeOp op).writeWord w) := by
  obtain ⟨i, hencode, hop⟩ := Instr.exists_withWord h w
  exact ⟨i, hop, by rw [toList_writeWith, List.flatMap_singleton, hencode], rfl⟩

theorem size_writeWith (b : Buffer) (op : Opcode) (w : UInt16) :
    ((b.writeOp op).writeWord w).size = b.size + Block.jumpSize := by
  rw [size_eq, size_eq, toList_writeWith]
  simp [wordBytes, Block.jumpSize]

theorem size_patch (b : Buffer) (label : Nat) : (b.patch label).size = b.size := by
  unfold patch
  dsimp only
  split
  · simp [size]
  · rfl

theorem size_writeLoop (b : Buffer) (start : Nat) : (b.writeLoop start).size = b.size + Block.jumpSize := by
  unfold writeLoop
  dsimp only
  split
  · exact size_writeWith b .loop _
  · exact size_writeWith b .loop 0

end Buffer

/-! ## Calls -/

namespace Emitter

/-- What can be asked of an emitter. -/
inductive Call where
  | bare (op : Opcode)
  | word (op : Opcode) (w : UInt16)
  | int (n : Int32)
  | long (n : Int64)
  | double (d : Double)
  | string (s : String)
  | null
  | bool (b : Bool)
  | load (slot : UInt16)
  | store (slot : UInt16)
  | new (cls : String)
  | field (op : Opcode) (cls name : String) (ty : Ty)
  | invoke (op : Opcode) (cls name descriptor : String)
  | fieldDyn (op : Opcode) (name : String)
  | invokeDynamic (name : String) (argc : UInt8)
  | invokeSpecialDyn (cls : String) (argc : UInt8)
  | invokeStaticDyn (cls name : String) (argc : UInt8)
  | widen (source target : Ty)
  | jump (op : Opcode)
  | patch (label : Nat)
  | loop (start : Nat)
deriving DecidableEq

/-- The emitter after a call; a string that is refused leaves it as it was. -/
def after (e : Emitter) : Call → Emitter
  | .bare op => e.op op
  | .word op w => e.word op w
  | .int n => e.int n
  | .long n => e.long n
  | .double d => e.double d
  | .string s => (e.string? s).getD e
  | .null => e.null
  | .bool b => e.bool b
  | .load slot => e.load slot
  | .store slot => e.store slot
  | .new cls => e.new cls
  | .field op cls name ty => e.field op cls name ty
  | .invoke op cls name descriptor => e.invoke op cls name descriptor
  | .fieldDyn op name => e.fieldDyn op name
  | .invokeDynamic name argc => e.invokeDynamic name argc
  | .invokeSpecialDyn cls argc => e.invokeSpecialDyn cls argc
  | .invokeStaticDyn cls name argc => e.invokeStaticDyn cls name argc
  | .widen source target => e.widen source target
  | .jump op => (e.jump op).2
  | .patch label => e.patch label
  | .loop start => e.loop start

/-- The emitter after calls, one after the other. -/
def run (e : Emitter) (calls : List Call) : Emitter := calls.foldl after e

/-- The operation codes that a call emits. -/
def Call.opcodes : Call → List Opcode
  | .bare op | .word op _ | .field op .. | .invoke op .. | .fieldDyn op _ | .jump op => [op]
  | .int n => [if n = 0 then .pushZero else if n = 1 then .pushOne else .ldc]
  | .long _ | .double _ => [.ldc]
  | .string s => if Pool.textFits s then [.ldc] else []
  | .null => [.pushNull]
  | .bool b => [if b then .pushTrue else .pushFalse]
  | .load _ => [.load]
  | .store _ => [.store]
  | .new _ => [.new]
  | .invokeDynamic .. => [.invokeDynamic]
  | .invokeSpecialDyn .. => [.invokeSpecialDyn]
  | .invokeStaticDyn .. => [.invokeStaticDyn]
  | .widen .int .long => [.i2l]
  | .widen .int .double => [.i2d]
  | .widen .long .double => [.l2d]
  | .widen .. => []
  | .patch _ => []
  | .loop _ => [.loop]

/-- The call has nothing to do with jumps and gives an operation code the operands that go with it. -/
def Call.Plain : Call → Prop
  | .bare op => op.operandSize = 0
  | .word op _ | .field op .. | .invoke op .. | .fieldDyn op _ => op.operandSize = 2
  | .jump _ | .patch _ | .loop _ => False
  | _ => True

variable {e : Emitter} {c : Call}

theorem run_append (e : Emitter) (calls more : List Call) : e.run (calls ++ more) = (e.run calls).run more :=
  List.foldl_append

theorem run_concat (e : Emitter) (calls : List Call) (c : Call) : e.run (calls ++ [c]) = (e.run calls).after c :=
  run_append e calls [c]

theorem wrote_emit (e : Emitter) (pool : Pool) (i : Instr) : e.buffer.Wrote [i] ({ e with pool }.emit i).buffer := by
  obtain ⟨hcode, hover⟩ := e.buffer.foldl_writeByte i.encode
  exact ⟨by rw [List.flatMap_singleton]; exact hcode, hover⟩

/-- An instruction that names constants is written whole. -/
theorem wrote_emitWith (e : Emitter) (make : Pool → Instr × Pool) :
    e.buffer.Wrote [(make e.pool).1] (e.emitWith make).buffer := e.wrote_emit _ _

/-- A call that has nothing to do with jumps writes the instructions of its operation codes. -/
theorem exists_wrote (h : c.Plain) (e : Emitter) :
    ∃ is : List Instr, is.map Instr.opcode = c.opcodes ∧ e.buffer.Wrote is (e.after c).buffer := by
  have hword : ∀ {op : Opcode}, op.operandSize = 2 → ∀ w, ∃ is : List Instr, is.map Instr.opcode = [op] ∧
      e.buffer.Wrote is ((e.buffer.writeOp op).writeWord w) := by
    intro op hop w
    obtain ⟨i, hi, hwrote⟩ := e.buffer.wrote_word hop w
    exact ⟨[i], by rw [List.map_singleton, hi], hwrote⟩
  cases c with
  | bare op =>
    obtain ⟨i, hi, hwrote⟩ := e.buffer.wrote_op h
    exact ⟨[i], by rw [List.map_singleton, hi]; rfl, hwrote⟩
  | word op w => exact hword h w
  | field op cls name ty =>
    rw [after, Emitter.field]
    generalize e.pool.addFieldRef _ = added
    exact hword h added.1
  | invoke op cls name descriptor =>
    rw [after, Emitter.invoke]
    generalize e.pool.addMethodRef _ = added
    exact hword h added.1
  | fieldDyn op name =>
    rw [after, Emitter.fieldDyn]
    generalize e.pool.addUtf8 _ = added
    exact hword h added.1
  | int n =>
    refine ⟨_, ?_, e.wrote_emitWith (·.pushInt n)⟩
    rw [List.map_singleton, Call.opcodes, Pool.pushInt]
    split
    · rfl
    · split <;> rfl
  | string s =>
    rw [after, string?, Pool.pushString?, Call.opcodes]
    split
    · exact ⟨_, rfl, e.wrote_emitWith (·.pushString s)⟩
    · exact ⟨[], rfl, .refl _⟩
  | bool b =>
    refine ⟨_, ?_, e.wrote_emit e.pool (.push (if b then .true else .false))⟩
    cases b <;> rfl
  | widen source target =>
    rw [after, widen]
    cases source <;> cases target <;> first
      | exact ⟨[], rfl, .refl _⟩
      | exact ⟨_, rfl, e.wrote_emit e.pool (.widen _)⟩
  | jump op => cases h
  | patch label => cases h
  | loop start => cases h
  | null => exact ⟨_, rfl, e.wrote_emit e.pool (.push .null)⟩
  | load slot => exact ⟨_, rfl, e.wrote_emit e.pool (.load slot)⟩
  | store slot => exact ⟨_, rfl, e.wrote_emit e.pool (.store slot)⟩
  | long n => exact ⟨_, rfl, e.wrote_emitWith (·.pushLong n)⟩
  | double d => exact ⟨_, rfl, e.wrote_emitWith (·.pushDouble d)⟩
  | new cls => exact ⟨_, rfl, e.wrote_emitWith (·.newObject cls)⟩
  | invokeDynamic name argc => exact ⟨_, rfl, e.wrote_emitWith (·.invokeDynamic name argc)⟩
  | invokeSpecialDyn cls argc => exact ⟨_, rfl, e.wrote_emitWith (·.invokeSpecialDyn cls argc)⟩
  | invokeStaticDyn cls name argc => exact ⟨_, rfl, e.wrote_emitWith (·.invokeStaticDyn cls name argc)⟩

/-! ## Offsets -/

theorem offset_jump (e : Emitter) (op : Opcode) : (e.jump op).2.offset = e.offset + Block.jumpSize :=
  e.buffer.size_writeWith op 0xffff

end Emitter

end ClassTree
