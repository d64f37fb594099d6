import Mathlib
import ClassTree.ClassFile.Reader
import ClassTree.ClassFile.Writer
import ClassTree.Proofs.Outcome

/-!
# What is written is read back

`Reads r bs a`: the reader `r` finds `a` in the bytes `bs`, and leaves what follows them. Such readings are put together
as the bytes are (`Reads.bind`). So every class file that can be written is read back as it was
(`ClassFile.decode_encode`), if it is of the version that is read and has no more constants than a pool holds.
-/

namespace ClassTree

namespace Bytes

theorem splitFrom_append (bs taken rest : Bytes) :
    splitFrom bs.length taken (bs ++ rest) = some (taken.reverse ++ bs, rest) := by
  induction bs generalizing taken with
  | nil => simp [splitFrom]
  | cons b bs ih => simp [splitFrom, ih]

theorem split?_append (bs rest : Bytes) : split? bs.length (bs ++ rest) = some (bs, rest) := by
  simp [split?, splitFrom_append]

theorem foldl_toNat (bs : Bytes) (n : Nat) :
    bs.foldl (fun n b => n * 256 + b.toNat) n = n * 256 ^ bs.length + toNat bs := by
  induction bs generalizing n with
  | nil => simp [toNat]
  | cons b bs ih =>
    rw [toNat, List.foldl_cons, List.foldl_cons, ih, ih (0 * 256 + b.toNat), List.length_cons, Nat.pow_succ]
    ring

/-- The lowest bytes of a number stand for the number up to what they leave out. -/
theorem toNat_ofNat (width n : Nat) : toNat (ofNat width n) = n % 256 ^ width := by
  induction width with
  | zero => simp [ofNat, toNat, Nat.mod_one]
  | succ w ih =>
    rw [ofNat, toNat, List.foldl_cons, foldl_toNat, ih, length_ofNat, Nat.pow_succ]
    have hbyte : (n >>> (8 * w)).toUInt8.toNat = n / 256 ^ w % 256 := by
      rw [Nat.shiftRight_eq_div_pow, Nat.pow_mul]
      rfl
    rw [hbyte, Nat.mod_mul]
    ring

theorem toList_loop (bs : ByteArray) (i : Nat) (r : List UInt8) :
    ByteArray.toList.loop bs i r = r.reverse ++ bs.data.toList.drop i := by
  induction h : bs.size - i generalizing i r with
  | zero =>
    have hle : bs.data.toList.length ≤ i := by
      change bs.size ≤ i
      omega
    rw [ByteArray.toList.loop, if_neg (by omega), List.drop_eq_nil_of_le hle, List.append_nil]
  | succ n ih =>
    have hlt : i < bs.data.toList.length := by
      change i < bs.size
      omega
    have hget : bs.get! i = bs.data.toList[i] := by
      rw [Array.getElem_toList]
      exact getElem!_pos bs.data i hlt
    rw [ByteArray.toList.loop, if_pos (by omega), ih (i + 1) _ (by omega), hget, List.reverse_cons, List.append_assoc,
      List.singleton_append, List.getElem_cons_drop]

theorem toList_eq_data (bs : ByteArray) : bs.toList = bs.data.toList := by
  rw [ByteArray.toList, toList_loop, List.reverse_nil, List.nil_append, List.drop_zero]

theorem length_ofText (s : String) : (ofText s).length = s.utf8ByteSize := by
  rw [ofText, toList_eq_data, String.toUTF8_eq_toByteArray]
  rfl

theorem toText?_ofText (s : String) : toText? (ofText s) = some s := by
  have hbytes : (⟨(ofText s).toArray⟩ : ByteArray) = s.toByteArray := by
    rw [ofText, toList_eq_data, String.toUTF8_eq_toByteArray]
  rw [toText?, hbytes, String.fromUTF8?, dif_pos s.isValidUTF8]
  rfl

end Bytes

/-! ## Readings -/

/-- The reader finds a value in bytes, whatever follows them, and leaves what follows. -/
def Reads {α : Type} (r : Reader α) (bs : Bytes) (a : α) : Prop :=
  ∀ rest offset, r ⟨bs ++ rest, offset⟩ = .ok (a, ⟨rest, offset + bs.length⟩)

namespace Reads

variable {α β : Type} {r : Reader α} {f : α → Reader β} {bs cs : Bytes} {a : α} {b : β}

theorem pure (a : α) : Reads (Pure.pure a) [] a := fun _ _ => rfl

theorem bind (hr : Reads r bs a) (hf : Reads (f a) cs b) : Reads (r >>= f) (bs ++ cs) b := by
  intro rest offset
  change Reader.bind r f _ = _
  rw [Reader.bind, List.append_assoc, hr]
  dsimp only
  rw [hf, List.length_append, Nat.add_assoc]

/-- The rule for the last part of a composite value. -/
theorem map {g : α → β} (hr : Reads r bs a) : Reads (r >>= fun a => Pure.pure (g a)) bs (g a) := by
  have h := hr.bind (f := fun a => Pure.pure (g a)) (pure (g a))
  rwa [List.append_nil] at h

theorem take (bs : Bytes) : Reads (Reader.take bs.length) bs bs := by
  intro rest offset
  rw [Reader.take, Bytes.split?_append]

theorem number (width n : Nat) (hn : n < 256 ^ width) : Reads (Reader.number width) (Bytes.ofNat width n) n := by
  have h := (take (Bytes.ofNat width n)).map (g := Bytes.toNat)
  rwa [Bytes.length_ofNat, Bytes.toNat_ofNat, Nat.mod_eq_of_lt hn] at h

theorem byte (x : UInt8) : Reads Reader.byte [x] x := by
  have h := (number 1 x.toNat x.toNat_lt).map (g := Nat.toUInt8)
  have hx : x.toNat.toUInt8 = x := UInt8.ofNat_toNat
  have hbytes : Bytes.ofNat 1 x.toNat = [x] := by simp [Bytes.ofNat]
  rwa [hx, hbytes] at h

theorem word (w : UInt16) : Reads Reader.word (Bytes.word w) w := by
  have h := (number 2 w.toNat w.toNat_lt).map (g := Nat.toUInt16)
  rwa [show w.toNat.toUInt16 = w from UInt16.ofNat_toNat] at h

/-- A count that was written is read as a word. -/
theorem count {what : Countable} {n : Nat} (h : Bytes.count what n = .ok bs) :
    n < 65536 ∧ Reads Reader.word bs n.toUInt16 := by
  unfold Bytes.count at h
  split at h
  · rename_i hn
    cases h
    refine ⟨hn, ?_⟩
    have hw := word n.toUInt16
    rwa [Bytes.word, show n.toUInt16.toNat = n from UInt16.toNat_ofNat_of_lt hn] at hw
  · cases h

theorem modifiers (m : Modifiers) : Reads Reader.modifiers (Bytes.word m.bits) m := (word m.bits).map

/-- Items that were written one by one are read one by one. -/
theorem itemsFrom {item : Nat → Reader α} {as : List α} {chunks : List Bytes} (i : Nat) (acc : List α)
    (h : List.Forall₂ (fun a bs => ∀ i, Reads (item i) bs a) as chunks) :
    Reads (Reader.itemsFrom item as.length i acc) chunks.flatten (acc.reverse ++ as) := by
  induction h generalizing i acc with
  | nil =>
    intro rest offset
    simp [Reader.itemsFrom]
  | @cons a bs as chunks ha _ ih =>
    intro rest offset
    rw [List.length_cons, Reader.itemsFrom, List.flatten_cons, List.append_assoc]
    dsimp only
    rw [ha i]
    dsimp only
    rw [ih (i + 1) (a :: acc)]
    simp [Nat.add_assoc]

theorem items {item : Nat → Reader α} {as : List α} {chunks : List Bytes}
    (h : List.Forall₂ (fun a bs => ∀ i, Reads (item i) bs a) as chunks) :
    Reads (Reader.items as.length item) chunks.flatten as := itemsFrom 1 [] h

/-- A table is read back from its count and its items. -/
theorem table {item : Reader α} {as : List α} {chunks : List Bytes} {what : Countable}
    (hcount : Bytes.count what as.length = .ok bs) (h : List.Forall₂ (fun a bs => Reads item bs a) as chunks) :
    Reads (Reader.table item) (bs ++ chunks.flatten) as := by
  obtain ⟨hlt, hword⟩ := count hcount
  refine hword.bind ?_
  rw [show as.length.toUInt16.toNat = as.length from UInt16.toNat_ofNat_of_lt hlt]
  exact items (h.imp fun a bs hab _ => hab)

theorem of_append_nil {r : Reader α} {a : α} (h : Reads r (bs ++ []) a) : Reads r bs a := by
  rwa [List.append_nil] at h

theorem constant {c : Constant} (h : c.encode = .ok bs) (i : Nat) : Reads (Reader.constant i) bs c := by
  have hoffset : ∀ {β : Type} {g : Nat → Reader β} {cs : Bytes} {b : β}, (∀ o, Reads (g o) cs b) →
      Reads (Reader.offset >>= g) cs b := fun hg rest o => hg o rest o
  obtain ⟨payload, hpayload, heq⟩ := bind_eq_ok.1 h
  obtain rfl : c.tag :: payload = bs := pure_eq_ok.1 heq
  refine hoffset fun o => (byte c.tag).bind ?_
  cases c with
  | utf8 s =>
    obtain ⟨size, hsize, heq⟩ := bind_eq_ok.1 hpayload
    obtain rfl : size ++ Bytes.ofText s = payload := pure_eq_ok.1 heq
    obtain ⟨hlt, hword⟩ := count hsize
    refine hword.bind ?_
    rw [show (Bytes.ofText s).length.toUInt16.toNat = (Bytes.ofText s).length from UInt16.toNat_ofNat_of_lt hlt]
    refine of_append_nil ((take (Bytes.ofText s)).bind ?_)
    rw [Bytes.toText?_ofText]
    exact pure _
  | int n =>
    cases hpayload
    have h := (number 4 n.toUInt32.toNat n.toUInt32.toNat_lt).map
      (g := fun k => Constant.int k.toUInt32.toInt32)
    rwa [show n.toUInt32.toNat.toUInt32 = n.toUInt32 from UInt32.ofNat_toNat, Int32.toInt32_toUInt32] at h
  | long n =>
    cases hpayload
    have h := (number 8 n.toUInt64.toNat n.toUInt64.toNat_lt).map
      (g := fun k => Constant.long k.toUInt64.toInt64)
    rwa [show n.toUInt64.toNat.toUInt64 = n.toUInt64 from UInt64.ofNat_toNat, Int64.toInt64_toUInt64] at h
  | double d =>
    cases hpayload
    have h := (number 8 d.bits.toNat d.bits.toNat_lt).map (g := fun k => Constant.double ⟨k.toUInt64⟩)
    rwa [show d.bits.toNat.toUInt64 = d.bits from UInt64.ofNat_toNat] at h
  | string text =>
    cases hpayload
    exact (word text).map
  | cls name =>
    cases hpayload
    exact (word name).map
  | fieldRef owner name descriptor =>
    cases hpayload
    rw [List.append_assoc]
    exact (word owner).bind ((word name).bind (word descriptor).map)
  | methodRef owner name descriptor =>
    cases hpayload
    rw [List.append_assoc]
    exact (word owner).bind ((word name).bind (word descriptor).map)

theorem innerInfo (i : InnerInfo) : Reads Reader.innerInfo i.encode i := by
  rw [InnerInfo.encode, List.append_assoc, List.append_assoc]
  exact (word i.inner).bind ((word i.outer).bind ((word i.simpleName).bind (modifiers i.access).map))

theorem fieldInfo (f : FieldInfo) : Reads Reader.fieldInfo f.encode f := by
  rw [FieldInfo.encode, List.append_assoc]
  exact (modifiers f.access).bind ((word f.name).bind (word f.descriptor).map)

theorem methodInfo {m : MethodInfo} (h : m.encode = .ok bs) : Reads Reader.methodInfo bs m := by
  obtain ⟨size, hsize, heq⟩ := bind_eq_ok.1 h
  obtain rfl := pure_eq_ok.1 heq
  unfold Bytes.longCount at hsize
  split at hsize
  · rename_i hlt
    cases hsize
    simp only [List.append_assoc]
    refine (modifiers m.access).bind ((word m.name).bind ((word m.descriptor).bind ((word m.maxLocals).bind
      ((number 4 _ hlt).bind ?_))))
    have h := (take m.code.toList).map
      (g := fun code => MethodInfo.mk m.access m.name m.descriptor m.maxLocals code.toArray)
    rwa [Array.length_toList, Array.toArray_toList] at h
  · cases hsize

end Reads

/-! ## Class files -/

theorem forall₂_flatMap {α : Type} {r : Reader α} {encode : α → Bytes} (h : ∀ a, Reads r (encode a) a) (as : List α) :
    List.Forall₂ (fun a bs => Reads r bs a) as (as.map encode) := by
  rw [List.forall₂_map_right_iff]
  exact List.forall₂_same.2 fun a _ => h a

/-- The parts that each item of a list is written as. -/
theorem mapM_eq_ok {α β ε : Type} {f : α → Except ε β} {xs : List α} {ys : List β} :
    xs.mapM f = .ok ys ↔ List.Forall₂ (fun x y => f x = .ok y) xs ys := by
  induction xs generalizing ys with
  | nil => cases ys <;> simp [pure_eq_ok]
  | cons x xs ih =>
    rw [List.mapM_cons]
    simp only [bind_eq_ok, pure_eq_ok]
    constructor
    · rintro ⟨y, hy, zs, hzs, rfl⟩
      exact .cons hy (ih.1 hzs)
    · rintro (_ | ⟨hy, hys⟩)
      exact ⟨_, hy, _, ih.2 hys, rfl⟩

theorem Reads.failIf {α : Type} {c : Prop} [Decidable c] {r : Reader Unit} {k : Unit → Reader α} {bs : Bytes} {a : α}
    (hc : ¬c) (h : Reads (k ()) bs a) : Reads (if c then r >>= k else k ()) bs a := by
  rwa [if_neg hc]

theorem Reads.classFile {f : ClassFile} {bytes : Bytes} (hmajor : f.major = ClassFile.majorVersion)
    (hconstants : f.constants.size ≤ Pool.maxEntries) (h : f.encode = .ok bytes) :
    Reads Reader.classFile bytes f := by
  simp only [ClassFile.encode, bind_eq_ok, pure_eq_ok] at h
  obtain ⟨cn, hcn, cs, hcs, inn, hin, fn, hfn, mn, hmn, ms, hms, rfl⟩ := h
  obtain ⟨hlt, hcount⟩ := count hcn
  have hnumber : f.constants.size.toUInt16.toNat = f.constants.size := UInt16.toNat_ofNat_of_lt hlt
  have hitems : Reads (Reader.items f.constants.size.toUInt16.toNat Reader.constant) cs.flatten f.constants.toList := by
    rw [hnumber, ← Array.length_toList]
    exact items ((mapM_eq_ok.1 hcs).imp fun _ _ h i => constant h i)
  have hinner := table hin (forall₂_flatMap innerInfo f.inner)
  have hfields := table hfn (forall₂_flatMap fieldInfo f.fields)
  have hmethods := table hmn ((mapM_eq_ok.1 hms).imp fun _ _ h => methodInfo h)
  rw [← List.flatMap_def] at hinner hfields
  simp only [List.append_assoc]
  refine (number 4 ClassFile.magic (by decide)).bind (failIf (by simp) ?_)
  refine (word f.major).bind ((word f.minor).bind (failIf (by simp [hmajor]) ?_))
  refine hcount.bind (failIf (by rw [hnumber]; omega) (hitems.bind ?_))
  refine (modifiers f.access).bind ((word f.thisClass).bind ((word f.superClass).bind ?_))
  rw [← List.append_assoc inn, ← List.append_assoc fn]
  refine hinner.bind (hfields.bind ?_)
  have h := hmethods.map (g := fun methods => ({ f with constants := f.constants.toList.toArray, methods } : ClassFile))
  rw [Array.toArray_toList] at h
  exact h

/-- Bytes in which the reader finds a class file are those of that class file. -/
theorem Reads.decode {f : ClassFile} {bytes : Bytes} (h : Reads Reader.classFile bytes f) :
    ClassFile.decode bytes = .ok f := by
  have hread := h [] 0
  rw [List.append_nil] at hread
  rw [ClassFile.decode, hread]
  rfl

/-- A class file that can be written is read back as it was. -/
theorem ClassFile.decode_encode {f : ClassFile} {bytes : Bytes} (hmajor : f.major = majorVersion)
    (hconstants : f.constants.size ≤ Pool.maxEntries) (h : f.encode = .ok bytes) : decode bytes = .ok f :=
  (Reads.classFile hmajor hconstants h).decode

/-- A class file with a constant that comes twice, a reference to no constant, a NaN with a payload and a text outside
ASCII. -/
def ClassFile.oddExample : ClassFile where
  minor := 7
  constants := #[.utf8 "é", .utf8 "é", .cls 9, .double ⟨0x7ff0000000000001⟩]
  access := ⟨0xffff⟩
  thisClass := 3
  superClass := 0
  inner := [⟨1, 2, 3, .static⟩]
  fields := [⟨.pub, 8, 0⟩]
  methods := [⟨.none, 1, 1, 0, #[0xff]⟩]

/-- The bytes of `oddExample`. -/
def ClassFile.oddBytes : Bytes := [
  0xc1, 0xa5, 0xf0, 0xa6, 0, 1, 0, 7,
  0, 4, 1, 0, 2, 0xc3, 0xa9, 1, 0, 2, 0xc3, 0xa9, 6, 0, 9, 4, 0x7f, 0xf0, 0, 0, 0, 0, 0, 1,
  0xff, 0xff, 0, 3, 0, 0,
  0, 1, 0, 1, 0, 2, 0, 3, 0, 8,
  0, 1, 0, 1, 0, 8, 0, 0,
  0, 1, 0, 0, 0, 1, 0, 1, 0, 0, 0, 0, 0, 1, 0xff]

theorem ClassFile.decode_encode_oddExample :
    oddExample.major = majorVersion ∧ oddExample.constants.size ≤ Pool.maxEntries ∧ oddExample.encode = .ok oddBytes ∧
      decode oddBytes = .ok oddExample := by
  have hencode : oddExample.encode = .ok oddBytes := by cbv
  exact ⟨rfl, by decide, hencode, decode_encode rfl (by decide) hencode⟩

end ClassTree
