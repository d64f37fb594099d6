import ClassTree.Proofs.Code.Balanced
import ClassTree.Proofs.Code.Written
import ClassTree.Proofs.Machine.Steps

/-!
# Where patched jumps lead

`Emitter.Orderly e calls`: the calls of an emitter end no jump twice, end only jumps that they have begun, and jump back only
to where one of them began. `Emitter.Leaps e calls l`: by these calls, the jump instruction at `l.offset` is to lead to
`l.target`. Each call keeps `Emitter.Laid`, by which the code is made of whole instructions and each leap that is not too far
has its distance as its operand. So code that is not overflowed leads where it was told to, for the verifier and for the
machine (`Leap.Lands`, `Emitter.jumps_land`).
-/

namespace ClassTree

/-! ## Leaps -/

/-- A jump instruction at an offset, and where it is to lead. -/
structure Leap where
  offset : Nat
  op : Opcode
  target : Nat
deriving DecidableEq

namespace Leap

/-- How far the target is from the end of the jump. -/
def distance (l : Leap) : Nat :=
  if l.op = .loop then l.offset + Block.jumpSize - l.target else l.target - (l.offset + Block.jumpSize)

/-- A loop leads back and the other jumps lead forward. -/
def Straight (l : Leap) : Prop :=
  l.op = .loop ∧ l.target ≤ l.offset ∨
    (l.op = .jump ∨ l.op = .jumpIfFalse) ∧ l.offset + Block.jumpSize ≤ l.target

/-- In the code the jump leads to its target. -/
structure Lands (l : Leap) (code : Array UInt8) : Prop where
  /-- The verifier reads the jump and computes the target. -/
  verified : ∀ c : CodeCheck, c.code = code →
    ∃ i eff, Instr.at? code l.offset = some i ∧ c.effect l.offset i = .ok eff ∧ eff.op = l.op ∧ eff.target = some l.target ∧
      ∀ effects, c.decode = .ok effects → effects[l.offset]? = some (some eff)
  /-- The machine goes on at the target. -/
  always : l.op ≠ .jumpIfFalse → ∀ (f : Frame) render m, f.code = code → f.ip = l.offset →
    f.step render m = .ok (.next { f with ip := l.target }) m
  /-- The machine goes on at the target or behind the jump. -/
  ifFalse : l.op = .jumpIfFalse → ∀ (f : Frame) render m b rest,
    f.code = code → f.ip = l.offset → f.stack = .bool b :: rest →
    f.step render m = .ok (.next { f with ip := if b then l.offset + Block.jumpSize else l.target, stack := rest }) m

end Leap

namespace Instr

/-- The jump instruction of an operation code, for a distance. -/
def leap (op : Opcode) (w : UInt16) : Instr :=
  match op with
  | .jump => .jump w
  | .jumpIfFalse => .jumpIfFalse w
  | _ => .loop w

theorem encode_leap {op : Opcode} (h : op = .jump ∨ op = .jumpIfFalse) (w : UInt16) :
    (leap op w).encode = op.toByte :: wordBytes w := by
  rcases h with rfl | rfl <;> rfl

theorem opcode_leap {op : Opcode} (h : op = .jump ∨ op = .jumpIfFalse) (w : UInt16) : (leap op w).opcode = op := by
  rcases h with rfl | rfl <;> rfl

theorem size_leap (op : Opcode) (w : UInt16) : (leap op w).size = Block.jumpSize := by
  unfold leap
  split <;> rfl

theorem leap_inj {op op' : Opcode} {w w' : UInt16} (h : op = .jump ∨ op = .jumpIfFalse)
    (h' : op' = .jump ∨ op' = .jumpIfFalse ∨ op' = .loop) (heq : leap op w = leap op' w') : op = op' := by
  rcases h with rfl | rfl <;> rcases h' with rfl | rfl | rfl <;> first | rfl | cases heq

/-! ## What stands at an offset -/

variable {is before after : List Instr} {i j k : Instr} {o : Nat}

theorem Stands.append (h : Stands is o i) (js : List Instr) : Stands (is ++ js) o i := stands_append.2 (.inl h)

theorem stands_concat (is : List Instr) (i : Instr) : Stands (is ++ [i]) (is.flatMap encode).length i := ⟨is, [], rfl, rfl⟩

/-- Only one instruction stands at an offset. -/
theorem Stands.unique (hi : Stands is o i) (hj : Stands is o j) : i = j := by
  have hblock : ∀ {i}, Stands is o i → Instr.at? (Block.encode ⟨is.toArray, false⟩) o = some i :=
    fun h => Block.Stands.at? h
  exact Option.some.inj ((hblock hi).symm.trans (hblock hj))

/-- What stands elsewhere is not moved when an instruction is replaced by one of its size. -/
theorem Stands.replace (hsize : i.size = j.size) (ho : o ≠ (before.flatMap encode).length)
    (h : Stands (before ++ i :: after) o k) : Stands (before ++ j :: after) o k := by
  rw [stands_append] at h ⊢
  refine h.imp_right ?_
  rintro ⟨o', rfl, hk⟩
  refine ⟨o', rfl, ?_⟩
  rw [stands_cons] at hk ⊢
  rcases hk with ⟨rfl, -⟩ | hk
  · exact absurd (Nat.add_zero _) ho
  · exact .inr (by rwa [← hsize])

end Instr

/-! ## Jumps with their distances -/

namespace Leap

variable {l : Leap}

/-- The jump with its distance as operand. -/
def instr (l : Leap) : Instr := .leap l.op l.distance.toUInt16

/-- The jump is one that says its distance, and its target is counted from its end. -/
theorem instr_cases (hl : l.Straight) (hfits : l.distance ≤ 65535) : ∃ w : UInt16,
    l.op = .loop ∧ l.instr = .loop w ∧ w.toNat ≤ l.offset + Block.jumpSize ∧
      l.offset + Block.jumpSize - w.toNat = l.target ∨
    l.op = .jump ∧ l.instr = .jump w ∧ l.offset + Block.jumpSize + w.toNat = l.target ∨
    l.op = .jumpIfFalse ∧ l.instr = .jumpIfFalse w ∧ l.offset + Block.jumpSize + w.toNat = l.target := by
  have hword : l.distance.toUInt16.toNat = l.distance :=
    Nat.mod_eq_of_lt (show l.distance < 65536 from Nat.lt_succ_of_le hfits)
  refine ⟨l.distance.toUInt16, ?_⟩
  rw [hword, instr, distance]
  rcases hl with ⟨hop, hback⟩ | ⟨hop | hop, hforward⟩ <;> rw [hop]
  · exact .inl ⟨rfl, rfl, Nat.sub_le _ _, Nat.sub_sub_self (Nat.le_add_right_of_le hback)⟩
  · exact .inr (.inl ⟨rfl, rfl, Nat.add_sub_of_le hforward⟩)
  · exact .inr (.inr ⟨rfl, rfl, Nat.add_sub_of_le hforward⟩)

theorem effect_instr (hl : l.Straight) (hfits : l.distance ≤ 65535) (c : CodeCheck) :
    ∃ pops, c.effect l.offset l.instr = .ok { op := l.op, pops, pushes := 0, target := some l.target } := by
  obtain ⟨w, ⟨hop, hi, hle, htarget⟩ | ⟨hop, hi, htarget⟩ | ⟨hop, hi, htarget⟩⟩ := instr_cases hl hfits <;>
    rw [hop, hi, ← htarget]
  · exact ⟨0, if_pos hle⟩
  · exact ⟨0, rfl⟩
  · exact ⟨1, rfl⟩

/-- A jump that has its distance as its operand leads to its target. -/
theorem lands {b : Block} (hl : l.Straight) (hfits : l.distance ≤ 65535) (h : b.Stands l.offset l.instr) :
    l.Lands b.encode := by
  have hstep : ∀ {f : Frame}, f.code = b.encode → f.ip = l.offset →
      ∀ render, f.step render = { f with ip := l.offset + Block.jumpSize }.exec render l.instr := by
    intro f hcode hip render
    rw [Frame.step_eq (i := l.instr) (by rw [hcode, hip]; exact h.at?), hip, instr, Instr.size_leap]
  refine ⟨fun c hcode => ?_, fun hop f render m hcode hip => ?_, fun hop f render m b rest hcode hip hstack => ?_⟩
  · obtain ⟨pops, heff⟩ := effect_instr hl hfits c
    refine ⟨l.instr, _, h.at?, heff, rfl, rfl, fun effects heffects => ?_⟩
    obtain ⟨eff, heff', hat⟩ := CodeCheck.decode_effects hcode heffects h
    rw [heff] at heff'
    cases heff'
    exact hat
  · rw [hstep hcode hip]
    obtain ⟨w, ⟨-, hi, hle, htarget⟩ | ⟨-, hi, htarget⟩ | ⟨hif, -, -⟩⟩ := instr_cases hl hfits
    · rw [hi, ← htarget, Frame.exec, if_pos hle]
      rfl
    · rw [hi, ← htarget]
      rfl
    · exact absurd hif hop
  · rw [hstep hcode hip]
    obtain ⟨w, ⟨hloop, -⟩ | ⟨hjump, -⟩ | ⟨-, hi, htarget⟩⟩ := instr_cases hl hfits
    · cases hop.symm.trans hloop
    · cases hop.symm.trans hjump
    · rw [hi, ← htarget]
      obtain ⟨_, _, _, _, _, _⟩ := f
      cases hstack
      cases b <;> rfl

end Leap

/-! ## Patching -/

namespace Buffer

variable {b : Buffer} {before after : List UInt8}

/-- The buffers hold the same bytes but for the two at an offset. -/
structure AgreeBut (offset : Nat) (b c : Buffer) : Prop where
  size : c.size = b.size
  byteAt? : ∀ i, i ≠ offset → i ≠ offset + 1 → c.byteAt? i = b.byteAt? i

/-- To patch a jump changes no byte beside its distance. -/
theorem agreeBut_patch (b : Buffer) (offset : Nat) : AgreeBut offset b (b.patch offset) := by
  refine ⟨b.size_patch offset, fun i h h' => ?_⟩
  unfold patch byteAt?
  dsimp only
  split
  · rw [Array.getElem?_setIfInBounds_ne (Ne.symm h'), Array.getElem?_setIfInBounds_ne (Ne.symm h)]
  · rfl

/-- A jump that is patched gets as its distance how much is behind it; if that is too much, the buffer is overflowed. -/
theorem exists_patch {op : Opcode} {w : UInt16} (h : b.code.toList = before ++ (op.toByte :: wordBytes w) ++ after) :
    ∃ w', (b.patch (before.length + 1)).code.toList = before ++ (op.toByte :: wordBytes w') ++ after ∧
      (after.length ≤ 65535 → w' = after.length.toUInt16) ∧
      ((b.patch (before.length + 1)).overflowed = true ↔ b.overflowed = true ∨ 65535 < after.length) := by
  have hdistance : b.size - (before.length + 1 + 2) = after.length := by
    rw [size_eq, h]
    simp [wordBytes]
    omega
  unfold patch
  dsimp only
  rw [hdistance]
  split
  · refine ⟨after.length.toUInt16, ?_, fun _ => rfl, by simp; omega⟩
    rw [Array.toList_setIfInBounds, Array.toList_setIfInBounds, h, List.append_assoc, List.append_assoc,
      List.set_append_right _ _ (Nat.le_succ _), List.set_append_right _ _ (by omega)]
    rw [show before.length + 1 - before.length = 1 by omega, show before.length + 1 + 1 - before.length = 2 by omega]
    rfl
  · exact ⟨w, h, fun hle => by omega, by simp; omega⟩

/-- A jump back has as its distance how far back it leads; if that is too far, the buffer is overflowed. -/
theorem exists_writeLoop (b : Buffer) {start : Nat} (h : start ≤ b.size) :
    ∃ w, (b.writeLoop start).code.toList = b.code.toList ++ Opcode.loop.toByte :: wordBytes w ∧
      (b.size + Block.jumpSize - start ≤ 65535 → w = (b.size + Block.jumpSize - start).toUInt16) ∧
      ((b.writeLoop start).overflowed = true ↔ b.overflowed = true ∨ 65535 < b.size + Block.jumpSize - start) := by
  have hdistance : (b.writeOp .loop).size - start + 2 = b.size + Block.jumpSize - start := by
    have hsize : (b.writeOp .loop).size = b.size + 1 := Array.size_push _
    rw [hsize, Block.jumpSize]
    omega
  unfold writeLoop
  dsimp only
  rw [hdistance]
  split
  · refine ⟨_, b.toList_writeWith .loop _, fun _ => rfl, ?_⟩
    change b.overflowed = true ↔ _
    simp
    omega
  · exact ⟨0, b.toList_writeWith .loop 0, fun hle => by omega, by simp; omega⟩

end Buffer

/-! ## Orderly calls -/

theorem concat_prefix_concat {α : Type} {xs ys : List α} {x y : α} :
    xs ++ [x] <+: ys ++ [y] ↔ xs = ys ∧ x = y ∨ xs ++ [x] <+: ys := by
  rw [List.prefix_concat_iff, List.append_singleton_inj]

namespace Emitter

/-- Calls by which each jump forward is ended once at most and each jump back leads to where a call began. -/
inductive Orderly (e : Emitter) : List Call → Prop
  | nil : Orderly e []
  | plain {calls : List Call} {c : Call} : Orderly e calls → c.Plain → Orderly e (calls ++ [c])
  | jump {calls : List Call} {op : Opcode} : Orderly e calls → op = .jump ∨ op = .jumpIfFalse →
      Orderly e (calls ++ [Call.jump op])
  | patch {calls front : List Call} {op : Opcode} : Orderly e calls → front ++ [Call.jump op] <+: calls →
      Call.patch ((e.run front).jump op).1 ∉ calls → Orderly e (calls ++ [Call.patch ((e.run front).jump op).1])
  | loop {calls mark : List Call} : Orderly e calls → mark <+: calls → Orderly e (calls ++ [Call.loop (e.run mark).offset])

/-- The leaps that calls make. -/
inductive Leaps (e : Emitter) (calls : List Call) : Leap → Prop
  /-- A jump leads to where it was patched. -/
  | forward {front done : List Call} {op : Opcode} : front ++ [Call.jump op] <+: done →
      done ++ [Call.patch ((e.run front).jump op).1] <+: calls →
      Leaps e calls ⟨(e.run front).offset, op, (e.run done).offset⟩
  /-- A loop leads to the offset that was given. -/
  | backward {front : List Call} {start : Nat} : front ++ [Call.loop start] <+: calls →
      Leaps e calls ⟨(e.run front).offset, .loop, start⟩

variable {e : Emitter} {calls : List Call} {c : Call} {l : Leap}

theorem offset_patch (e : Emitter) (label : Nat) : (e.patch label).offset = e.offset := e.buffer.size_patch label

theorem offset_loop (e : Emitter) (start : Nat) : (e.loop start).offset = e.offset + Block.jumpSize :=
  e.buffer.size_writeLoop start

theorem label_jump (e : Emitter) (op : Opcode) : (e.jump op).1 = e.offset + 1 := by
  change (e.buffer.writeOp op).size = e.buffer.size + 1
  rw [Buffer.size_eq, Buffer.size_eq, Buffer.toList_writeOp, List.length_append, List.length_singleton]

/-- What one more call adds to the leaps. -/
theorem leaps_concat : Leaps e (calls ++ [c]) l ↔ Leaps e calls l ∨
    (∃ front op, front ++ [Call.jump op] <+: calls ∧ c = .patch ((e.run front).jump op).1 ∧
      l = ⟨(e.run front).offset, op, (e.run calls).offset⟩) ∨
    ∃ start, c = .loop start ∧ l = ⟨(e.run calls).offset, .loop, start⟩ := by
  constructor
  · intro h
    cases h with
    | forward hjump hpatch =>
      rcases concat_prefix_concat.1 hpatch with ⟨rfl, rfl⟩ | hpatch
      · exact .inr (.inl ⟨_, _, hjump, rfl, rfl⟩)
      · exact .inl (.forward hjump hpatch)
    | backward hloop =>
      rcases concat_prefix_concat.1 hloop with ⟨rfl, rfl⟩ | hloop
      · exact .inr (.inr ⟨_, rfl, rfl⟩)
      · exact .inl (.backward hloop)
  · rintro (h | ⟨front, op, hjump, rfl, rfl⟩ | ⟨start, rfl, rfl⟩)
    · cases h with
      | forward hjump hpatch => exact .forward hjump (hpatch.trans (List.prefix_append _ _))
      | backward hloop => exact .backward (hloop.trans (List.prefix_append _ _))
    · exact .forward hjump List.prefix_rfl
    · exact .backward List.prefix_rfl

theorem Orderly.offset_le {mark : List Call} (h : e.Orderly calls) (hmark : mark <+: calls) :
    (e.run mark).offset ≤ (e.run calls).offset := by
  have hstep : ∀ {calls c}, (mark <+: calls → (e.run mark).offset ≤ (e.run calls).offset) →
      (e.run calls).offset ≤ ((e.run calls).after c).offset → mark <+: calls ++ [c] →
      (e.run mark).offset ≤ (e.run (calls ++ [c])).offset := by
    intro calls c ih hc hmark
    rcases List.prefix_concat_iff.1 hmark with rfl | hmark
    · exact Nat.le_refl _
    · rw [run_concat]
      exact Nat.le_trans (ih hmark) hc
  induction h with
  | nil =>
    obtain rfl := List.prefix_nil.1 hmark
    exact Nat.le_refl _
  | @plain calls c _ hc ih =>
    obtain ⟨is, -, hwrote⟩ := exists_wrote hc (e.run calls)
    exact hstep ih (Nat.le.intro hwrote.size.symm) hmark
  | jump _ _ ih => exact hstep ih (Nat.le.intro (offset_jump _ _).symm) hmark
  | patch _ _ _ ih => exact hstep ih (Nat.le_of_eq (offset_patch _ _).symm) hmark
  | loop _ _ ih => exact hstep ih (Nat.le.intro (offset_loop _ _).symm) hmark

/-! ## What orderly calls keep -/

/-- The code is that of whole instructions, and these are the instructions of the calls. -/
structure Framed (e : Emitter) (calls : List Call) (is : List Instr) : Prop where
  code : (e.run calls).buffer.code.toList = is.flatMap Instr.encode
  opcodes : is.map Instr.opcode = calls.flatMap Call.opcodes

/-- Besides, the leaps that the calls make stand in the code with their distances. -/
structure Laid (e : Emitter) (calls : List Call) (is : List Instr) : Prop extends Framed e calls is where
  /-- Where a jump was begun, it stands, patched or not. -/
  jumps : ∀ {front op}, front ++ [Call.jump op] <+: calls →
    (op = .jump ∨ op = .jumpIfFalse) ∧ ∃ w, Instr.Stands is (e.run front).offset (.leap op w)
  loops : ∀ {front start}, front ++ [Call.loop start] <+: calls → ∃ w, Instr.Stands is (e.run front).offset (.leap .loop w)
  straight : ∀ {l}, Leaps e calls l → l.Straight
  leaps : ∀ {l}, Leaps e calls l → l.distance ≤ 65535 → Instr.Stands is l.offset l.instr
  overflowed : (e.run calls).buffer.overflowed = true ↔ ∃ l, Leaps e calls l ∧ 65535 < l.distance

variable {is js : List Instr}

theorem Framed.offset (h : Framed e calls is) : (e.run calls).offset = (is.flatMap Instr.encode).length := by
  rw [← h.code]
  exact Buffer.size_eq _

theorem Framed.concat (h : Framed e calls is) (hcode : ((e.run calls).after c).buffer.code.toList =
    (e.run calls).buffer.code.toList ++ js.flatMap Instr.encode) (hops : js.map Instr.opcode = c.opcodes) :
    Framed e (calls ++ [c]) (is ++ js) := by
  refine ⟨?_, ?_⟩
  · rw [run_concat, hcode, h.code, List.flatMap_append]
  · rw [List.map_append, List.flatMap_append, h.opcodes, hops, List.flatMap_singleton]

/-- The far leaps are those from before and the new one if it is far. -/
theorem far_concat {new : Option Leap} (h : ∀ l, Leaps e (calls ++ [c]) l ↔ Leaps e calls l ∨ l ∈ new) :
    (∃ l, Leaps e (calls ++ [c]) l ∧ 65535 < l.distance) ↔
      (∃ l, Leaps e calls l ∧ 65535 < l.distance) ∨ ∃ l ∈ new, 65535 < l.distance := by
  simp only [h, or_and_right, exists_or]

/-- Instructions are added behind the others by a call that makes at most one new leap, which is back. -/
theorem Laid.append (h : Laid e calls is) (new : Option Leap) (hframed : Framed e (calls ++ [c]) (is ++ js))
    (hjump : ∀ op, c = .jump op → (op = .jump ∨ op = .jumpIfFalse) ∧ ∃ w, js = [Instr.leap op w])
    (hloop : ∀ start, c = .loop start → ∃ w, js = [Instr.leap .loop w])
    (hleaps : ∀ l, Leaps e (calls ++ [c]) l ↔ Leaps e calls l ∨ l ∈ new)
    (hnew : ∀ l ∈ new, l.Straight ∧ (l.distance ≤ 65535 → Instr.Stands (is ++ js) l.offset l.instr))
    (hover : ((e.run calls).after c).buffer.overflowed = true ↔
      (e.run calls).buffer.overflowed = true ∨ ∃ l ∈ new, 65535 < l.distance) : Laid e (calls ++ [c]) (is ++ js) := by
  have hend : ∀ i, js = [i] → Instr.Stands (is ++ js) (e.run calls).offset i := by
    rintro i rfl
    rw [h.offset]
    exact Instr.stands_concat is i
  refine ⟨hframed, fun hfront => ?_, fun hfront => ?_, fun hl => ?_, fun hl hfits => ?_, ?_⟩
  · rcases concat_prefix_concat.1 hfront with ⟨rfl, hc⟩ | hfront
    · obtain ⟨hop, w, hw⟩ := hjump _ hc.symm
      exact ⟨hop, w, hend _ hw⟩
    · obtain ⟨hop, w, hw⟩ := h.jumps hfront
      exact ⟨hop, w, hw.append js⟩
  · rcases concat_prefix_concat.1 hfront with ⟨rfl, hc⟩ | hfront
    · obtain ⟨w, hw⟩ := hloop _ hc.symm
      exact ⟨w, hend _ hw⟩
    · obtain ⟨w, hw⟩ := h.loops hfront
      exact ⟨w, hw.append js⟩
  · exact ((hleaps _).1 hl).elim h.straight fun hl => (hnew _ hl).1
  · exact ((hleaps _).1 hl).elim (fun hl => (h.leaps hl hfits).append js) fun hl => (hnew _ hl).2 hfits
  · rw [run_concat, hover, h.overflowed, far_concat hleaps]

theorem laid_nil (pool : Pool) : Laid (ofPool pool) [] [] := by
  have hnone : ∀ {l}, ¬ Leaps (ofPool pool) [] l := by
    intro l h
    cases h with
    | forward _ h => simp at h
    | backward h => simp at h
  refine ⟨⟨rfl, rfl⟩, fun h => absurd (List.prefix_nil.1 h) (by simp), fun h => absurd (List.prefix_nil.1 h) (by simp),
    fun h => absurd h hnone, fun h => absurd h hnone, iff_of_false Bool.false_ne_true ?_⟩
  rintro ⟨l, hl, -⟩
  exact hnone hl

theorem Laid.plain (h : Laid e calls is) (hc : c.Plain) : ∃ js, Laid e (calls ++ [c]) js := by
  obtain ⟨js, hops, hwrote⟩ := exists_wrote hc (e.run calls)
  refine ⟨is ++ js, h.append none (h.concat hwrote.code hops) ?_ ?_ (fun l => ?_) (by simp) ?_⟩
  · rintro op rfl
    exact hc.elim
  · rintro start rfl
    exact hc.elim
  · rw [leaps_concat]
    refine or_congr_right (iff_of_false ?_ (by simp))
    rintro (⟨front, op, -, rfl, -⟩ | ⟨start, rfl, -⟩) <;> exact hc
  · rw [hwrote.overflowed]
    simp

theorem Laid.jump (h : Laid e calls is) {op : Opcode} (hop : op = .jump ∨ op = .jumpIfFalse) :
    ∃ js, Laid e (calls ++ [Call.jump op]) js := by
  have hcode := (e.run calls).buffer.toList_writeWith op 0xffff
  refine ⟨is ++ [Instr.leap op 0xffff], h.append none (h.concat ?_ ?_) ?_ ?_ (fun l => ?_) (by simp) ?_⟩
  · rw [List.flatMap_singleton, Instr.encode_leap hop]
    exact hcode
  · rw [List.map_singleton, Instr.opcode_leap hop, Call.opcodes]
  · rintro op' ⟨⟩
    exact ⟨hop, _, rfl⟩
  · rintro start ⟨⟩
  · rw [leaps_concat]
    exact or_congr_right (iff_of_false (by simp) (by simp))
  · change (e.run calls).buffer.overflowed = true ↔ _
    simp

theorem Laid.loop (h : Laid e calls is) {start : Nat} (hstart : start ≤ (e.run calls).offset) :
    ∃ js, Laid e (calls ++ [Call.loop start]) js := by
  let back : Leap := ⟨(e.run calls).offset, .loop, start⟩
  obtain ⟨w, hcode, hw, hover⟩ := (e.run calls).buffer.exists_writeLoop hstart
  refine ⟨is ++ [Instr.leap .loop w],
    h.append (some back) (h.concat ?_ rfl) ?_ (fun _ _ => ⟨w, rfl⟩) (fun l => ?_) ?_ ?_⟩
  · rw [List.flatMap_singleton]
    exact hcode
  · rintro op ⟨⟩
  · rw [leaps_concat]
    refine or_congr_right ⟨?_, ?_⟩
    · rintro (⟨front, op, -, hc, -⟩ | ⟨start, ⟨⟩, rfl⟩)
      · cases hc
      · rfl
    · rintro ⟨⟩
      exact .inr ⟨start, rfl, rfl⟩
  · rintro l ⟨⟩
    refine ⟨.inl ⟨rfl, hstart⟩, fun hfits => ?_⟩
    obtain rfl : w = back.distance.toUInt16 := hw hfits
    change Instr.Stands _ (e.run calls).offset _
    rw [h.offset]
    exact Instr.stands_concat is _
  · refine hover.trans (or_congr_right ⟨fun hfar => ⟨back, rfl, hfar⟩, ?_⟩)
    rintro ⟨l, ⟨⟩, hfar⟩
    exact hfar

section Patch

variable {front : List Call} {op : Opcode}

/-- Where a jump is that was not patched before, no leap begins. -/
theorem Laid.offset_ne (h : Laid e calls is) (hjump : front ++ [Call.jump op] <+: calls)
    (hfirst : Call.patch ((e.run front).jump op).1 ∉ calls) (hl : Leaps e calls l) : l.offset ≠ (e.run front).offset := by
  intro heq
  cases hl with
  | @forward front' done op' hjump' hpatch =>
    refine hfirst (hpatch.subset (List.mem_append_right _ ?_))
    rw [label_jump, label_jump, show (e.run front').offset = (e.run front).offset from heq]
    exact List.mem_singleton_self _
  | @backward front' start hloop =>
    obtain ⟨hop, w, hw⟩ := h.jumps hjump
    obtain ⟨w', hw'⟩ := h.loops hloop
    rw [show (e.run front').offset = (e.run front).offset from heq] at hw'
    obtain rfl := Instr.leap_inj hop (.inr (.inr rfl)) (hw.unique hw')
    rcases hop with hop | hop <;> cases hop

/-- A patch makes one leap, from the jump that is patched to here. -/
theorem Laid.leaps_patch (h : Laid e calls is) (hjump : front ++ [Call.jump op] <+: calls) :
    Leaps e (calls ++ [Call.patch ((e.run front).jump op).1]) l ↔
      Leaps e calls l ∨ l = ⟨(e.run front).offset, op, (e.run calls).offset⟩ := by
  rw [leaps_concat]
  refine or_congr_right ⟨?_, ?_⟩
  · rintro (⟨front', op', hjump', hlabel, rfl⟩ | ⟨start, hc, -⟩)
    · rw [Call.patch.injEq, label_jump, label_jump, Nat.add_right_cancel_iff] at hlabel
      obtain ⟨hop, w, hw⟩ := h.jumps hjump
      obtain ⟨hop', w', hw'⟩ := h.jumps hjump'
      rw [← hlabel] at hw' ⊢
      rw [Instr.leap_inj hop (hop'.imp_right .inl) (hw.unique hw')]
    · cases hc
  · rintro rfl
    exact .inl ⟨front, op, hjump, rfl, rfl⟩

/-- A jump is replaced by the same one with another distance, by a call that makes one new leap, from there. -/
theorem Laid.replace {before after : List Instr} {w w' : UInt16} {label : Nat}
    (h : Laid e calls (before ++ Instr.leap op w :: after)) (new : Leap) (hop : op = .jump ∨ op = .jumpIfFalse)
    (hframed : Framed e (calls ++ [Call.patch label]) (before ++ Instr.leap op w' :: after))
    (hother : ∀ {l}, Leaps e calls l → l.offset ≠ (before.flatMap Instr.encode).length)
    (hleaps : ∀ l, Leaps e (calls ++ [Call.patch label]) l ↔ Leaps e calls l ∨ l ∈ some new) (hstraight : new.Straight)
    (hnew : new.distance ≤ 65535 → Instr.Stands (before ++ Instr.leap op w' :: after) new.offset new.instr)
    (hover : ((e.run calls).after (.patch label)).buffer.overflowed = true ↔
      (e.run calls).buffer.overflowed = true ∨ ∃ l ∈ some new, 65535 < l.distance) :
    Laid e (calls ++ [Call.patch label]) (before ++ Instr.leap op w' :: after) := by
  have hkeep : ∀ {o i}, o ≠ (before.flatMap Instr.encode).length → Instr.Stands (before ++ Instr.leap op w :: after) o i →
      Instr.Stands (before ++ Instr.leap op w' :: after) o i := by
    intro o i ho hi
    exact hi.replace (by rw [Instr.size_leap, Instr.size_leap]) ho
  refine ⟨hframed, @fun front' op' hfront => ?_, fun hfront => ?_, fun hl => ?_, fun hl hfits => ?_, ?_⟩
  · rcases concat_prefix_concat.1 hfront with ⟨-, hc⟩ | hfront
    · cases hc
    obtain ⟨hop', v, hv⟩ := h.jumps hfront
    refine ⟨hop', ?_⟩
    -- At the place of the jump its replacement stands, and elsewhere what stood there before.
    by_cases ho : (e.run front').offset = (before.flatMap Instr.encode).length
    · rw [ho] at hv ⊢
      rw [Instr.leap_inj hop' (hop.imp_right .inl) (hv.unique ⟨before, after, rfl, rfl⟩)]
      exact ⟨w', before, after, rfl, rfl⟩
    · exact ⟨v, hkeep ho hv⟩
  · rcases concat_prefix_concat.1 hfront with ⟨-, hc⟩ | hfront
    · cases hc
    obtain ⟨v, hv⟩ := h.loops hfront
    exact ⟨v, hkeep (hother (.backward hfront)) hv⟩
  · rcases (hleaps _).1 hl with hl | ⟨⟨⟩⟩
    · exact h.straight hl
    · exact hstraight
  · rcases (hleaps _).1 hl with hl | ⟨⟨⟩⟩
    · exact hkeep (hother hl) (h.leaps hl hfits)
    · exact hnew hfits
  · rw [run_concat, hover, h.overflowed, far_concat hleaps]

theorem Laid.patch (h : Laid e calls is) (hjump : front ++ [Call.jump op] <+: calls)
    (hfirst : Call.patch ((e.run front).jump op).1 ∉ calls) :
    ∃ js, Laid e (calls ++ [Call.patch ((e.run front).jump op).1]) js := by
  obtain ⟨hop, w, before, after, rfl, hoffset⟩ := h.jumps hjump
  have hsplit : (e.run calls).buffer.code.toList =
      before.flatMap Instr.encode ++ (op.toByte :: wordBytes w) ++ after.flatMap Instr.encode := by
    rw [h.code, List.flatMap_append, List.flatMap_cons, Instr.encode_leap hop, List.append_assoc]
  obtain ⟨w', hcode, hw', hover⟩ := (e.run calls).buffer.exists_patch hsplit
  rw [← hoffset, ← label_jump _ op] at hcode hover
  let here : Leap := ⟨(e.run front).offset, op, (e.run calls).offset⟩
  have hend : (e.run calls).offset = (e.run front).offset + Block.jumpSize + (after.flatMap Instr.encode).length := by
    rw [h.offset, hoffset]
    simp only [List.flatMap_append, List.flatMap_cons, List.length_append, Instr.length_encode, Instr.size_leap]
    omega
  have hdistance : here.distance = (after.flatMap Instr.encode).length := by
    have hne : op ≠ .loop := by rintro rfl; simp at hop
    rw [Leap.distance, if_neg hne]
    exact Nat.sub_eq_of_eq_add' hend
  refine ⟨before ++ Instr.leap op w' :: after, h.replace here hop ⟨?_, ?_⟩
    (fun hl => hoffset ▸ h.offset_ne hjump hfirst hl) (fun l => ?_) (.inr ⟨hop, Nat.le.intro hend.symm⟩)
    (fun hfits => ?_) ?_⟩
  · rw [run_concat, List.flatMap_append, List.flatMap_cons, Instr.encode_leap hop, ← List.append_assoc]
    exact hcode
  · have hops := h.opcodes
    rw [List.map_append, List.map_cons, Instr.opcode_leap hop] at hops ⊢
    rw [hops, List.flatMap_append]
    exact (List.append_nil _).symm
  · rw [h.leaps_patch hjump, Option.mem_some_iff, eq_comm (a := here)]
  · obtain rfl : w' = here.distance.toUInt16 := hdistance ▸ hw' (hdistance ▸ hfits)
    exact ⟨before, after, rfl, hoffset⟩
  · refine hover.trans (or_congr_right ⟨fun hfar => ⟨here, rfl, hdistance ▸ hfar⟩, ?_⟩)
    rintro ⟨l, ⟨⟩, hfar⟩
    exact hdistance ▸ hfar

end Patch

/-- Orderly calls lay out their instructions. -/
theorem Orderly.exists_laid {pool : Pool} (h : (ofPool pool).Orderly calls) : ∃ is, Laid (ofPool pool) calls is := by
  induction h with
  | nil => exact ⟨[], laid_nil pool⟩
  | plain _ hc ih =>
    obtain ⟨is, ih⟩ := ih
    exact ih.plain hc
  | jump _ hop ih =>
    obtain ⟨is, ih⟩ := ih
    exact ih.jump hop
  | patch _ hjump hfirst ih =>
    obtain ⟨is, ih⟩ := ih
    exact ih.patch hjump hfirst
  | loop hcalls hmark ih =>
    obtain ⟨is, ih⟩ := ih
    exact ih.loop (hcalls.offset_le hmark)

/-- What is patched is the distance of a jump that was begun. -/
theorem Orderly.exists_begun {done : List Call} {label : Nat} (h : e.Orderly calls)
    (hpatch : done ++ [Call.patch label] <+: calls) :
    ∃ front op, front ++ [Call.jump op] <+: done ∧ label = (e.run front).offset + 1 := by
  induction h with
  | nil => simp at hpatch
  | plain _ hc ih =>
    rcases concat_prefix_concat.1 hpatch with ⟨-, rfl⟩ | hpatch
    · cases hc
    · exact ih hpatch
  | patch _ hjump _ ih =>
    rcases concat_prefix_concat.1 hpatch with ⟨rfl, ⟨⟩⟩ | hpatch
    · exact ⟨_, _, hjump, label_jump _ _⟩
    · exact ih hpatch
  | jump _ _ ih | loop _ _ ih =>
    rcases concat_prefix_concat.1 hpatch with ⟨-, ⟨⟩⟩ | hpatch
    exact ih hpatch

/-- The code of orderly calls lists their operation codes in order. A patch changes nothing beside the distance of a jump that
was begun. If the code is not overflowed, each leap of the calls lands where it is to lead, and it is overflowed iff one is too
far. -/
theorem jumps_land {pool : Pool} {calls : List Call} (h : (ofPool pool).Orderly calls) :
    ((ofPool pool).run calls).buffer.opcodes = calls.flatMap Call.opcodes ∧
      (∀ done label, done ++ [Call.patch label] <+: calls →
        (∃ front op, front ++ [Call.jump op] <+: done ∧ label = ((ofPool pool).run front).offset + 1) ∧
          Buffer.AgreeBut label ((ofPool pool).run done).buffer ((ofPool pool).run (done ++ [Call.patch label])).buffer) ∧
      (((ofPool pool).run calls).buffer.overflowed = false →
        ∀ l, Leaps (ofPool pool) calls l → l.Lands ((ofPool pool).run calls).buffer.code) ∧
      (((ofPool pool).run calls).buffer.overflowed = true ↔ ∃ l, Leaps (ofPool pool) calls l ∧ 65535 < l.distance) := by
  obtain ⟨is, hlaid⟩ := h.exists_laid
  refine ⟨?_, fun done label hpatch => ⟨h.exists_begun hpatch, ?_⟩, fun hover l hl => ?_, hlaid.overflowed⟩
  · rw [Buffer.opcodes, Opcode.list_flatMap_encode hlaid.code, hlaid.opcodes]
  · rw [run_concat]
    exact Buffer.agreeBut_patch _ label
  · have hfits : l.distance ≤ 65535 := by
      by_contra hfar
      rw [hlaid.overflowed.2 ⟨l, hl, Nat.lt_of_not_le hfar⟩] at hover
      cases hover
    have hcode : ((ofPool pool).run calls).buffer.code = Block.encode ⟨is.toArray, false⟩ := by
      rw [← Array.toList_inj, hlaid.code, Block.encode]
      rfl
    rw [hcode]
    exact Leap.lands (hlaid.straight hl) hfits (hlaid.leaps hl hfits)

/-- A loop with a branch in it. -/
def nestedCalls : List Call :=
  [.bool true, .jump .jumpIfFalse, .load 0, .jump .jump, .null, .bare .pop, .patch 8, .loop 0, .patch 2, .bare .retVoid]

theorem orderly_nested : (ofPool .empty).Orderly nestedCalls := by
  have hfirst : (ofPool .empty).Orderly (nestedCalls.take 6) := by
    refine .plain (.plain (.jump (.plain (.jump (.plain .nil ?_) ?_) ?_) ?_) ?_) ?_ <;>
      simp [Call.Plain, Opcode.operandSize]
  have hinner : (ofPool .empty).Orderly (nestedCalls.take 7) :=
    hfirst.patch (show nestedCalls.take 3 ++ [Call.jump .jump] <+: _ by decide) (by decide)
  have hback : (ofPool .empty).Orderly (nestedCalls.take 8) := hinner.loop List.nil_prefix
  have houter : (ofPool .empty).Orderly (nestedCalls.take 9) :=
    hback.patch (show nestedCalls.take 1 ++ [Call.jump .jumpIfFalse] <+: _ by decide) (by decide)
  exact houter.plain (show Call.Plain (.bare .retVoid) from rfl)

/-- The test leads behind the loop, the branch over what it skips, and the loop to its test. -/
theorem jumps_land_nested :
    (ofPool .empty).Orderly nestedCalls ∧
      ((ofPool .empty).run nestedCalls).buffer.opcodes =
        [.pushTrue, .jumpIfFalse, .load, .jump, .pushNull, .pop, .loop, .retVoid] ∧
      Leap.Lands ⟨1, .jumpIfFalse, 15⟩ ((ofPool .empty).run nestedCalls).buffer.code ∧
      Leap.Lands ⟨7, .jump, 12⟩ ((ofPool .empty).run nestedCalls).buffer.code ∧
      Leap.Lands ⟨12, .loop, 0⟩ ((ofPool .empty).run nestedCalls).buffer.code := by
  obtain ⟨hops, -, hlands, -⟩ := jumps_land orderly_nested
  refine ⟨orderly_nested, hops, hlands rfl _ ?_, hlands rfl _ ?_, hlands rfl _ ?_⟩
  · exact .forward (show nestedCalls.take 1 ++ [Call.jump .jumpIfFalse] <+: nestedCalls.take 8 by decide) (by decide)
  · exact .forward (show nestedCalls.take 3 ++ [Call.jump .jump] <+: nestedCalls.take 6 by decide) (by decide)
  · exact .backward (show nestedCalls.take 7 ++ [Call.loop 0] <+: nestedCalls by decide)

end Emitter

end ClassTree
