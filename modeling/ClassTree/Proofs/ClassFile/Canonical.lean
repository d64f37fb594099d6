import Mathlib
import ClassTree.Proofs.ClassFile.RoundTrip

/-!
# What is read was written so

A class file has one spelling. Every reader that succeeds has passed over exactly the bytes that the value it gives is
written as: numbers and texts (`Reader.number_eq_ok`, `Bytes.ofText_of_toText?`), constants (`Reader.constant_eq_ok`) and
tables (`Reader.table_eq_ok`). So the bytes of a class file that was read are those that it is written as
(`ClassFile.encode_decode`).
-/

namespace ClassTree

namespace Bytes

theorem toNat_lt (bs : Bytes) : toNat bs < 256 ^ bs.length := by
  induction bs with
  | nil => simp [toNat]
  | cons b bs ih =>
    have hb := b.toNat_lt
    rw [toNat, List.foldl_cons, foldl_toNat, List.length_cons, Nat.pow_succ, Nat.zero_mul, Nat.zero_add]
    calc b.toNat * 256 ^ bs.length + toNat bs < b.toNat * 256 ^ bs.length + 256 ^ bs.length := by omega
      _ = (b.toNat + 1) * 256 ^ bs.length := by ring
      _ ≤ 256 * 256 ^ bs.length := Nat.mul_le_mul_right _ (by omega)
      _ = 256 ^ bs.length * 256 := Nat.mul_comm _ _

/-- Bytes above those that are written do not matter. -/
theorem ofNat_add_mul (width n k : Nat) : ofNat width (k * 256 ^ width + n) = ofNat width n := by
  induction width generalizing k with
  | zero => rfl
  | succ w ih =>
    have hpow : k * 256 ^ (w + 1) = k * 256 * 256 ^ w := by rw [Nat.pow_succ]; ring
    rw [ofNat, ofNat, hpow, ih]
    congr 1
    apply UInt8.toNat_inj.1
    have hbyte : ∀ m : Nat, (m >>> (8 * w)).toUInt8.toNat = m / 256 ^ w % 256 := by
      intro m
      rw [Nat.shiftRight_eq_div_pow, Nat.pow_mul]
      rfl
    rw [hbyte, hbyte, Nat.add_comm, Nat.add_mul_div_right _ _ (Nat.pow_pos (by omega)), Nat.add_mul_mod_self_right]

/-- Bytes are the digits of the number that they stand for. -/
theorem ofNat_toNat (bs : Bytes) : ofNat bs.length (toNat bs) = bs := by
  induction bs with
  | nil => rfl
  | cons b bs ih =>
    have hlt := toNat_lt bs
    have hnum : toNat (b :: bs) = b.toNat * 256 ^ bs.length + toNat bs := by
      rw [toNat, List.foldl_cons, foldl_toNat, Nat.zero_mul, Nat.zero_add]
    rw [List.length_cons, ofNat, hnum, ofNat_add_mul, ih, Nat.shiftRight_eq_div_pow,
      show 2 ^ (8 * bs.length) = 256 ^ bs.length by rw [Nat.pow_mul], Nat.mul_comm, Nat.add_comm,
      Nat.add_mul_div_left _ _ (Nat.pow_pos (by omega)), Nat.div_eq_of_lt hlt, Nat.zero_add]
    congr 1
    exact UInt8.ofNat_toNat

theorem splitFrom_eq_some {n : Nat} {taken bs front rest : Bytes} (h : splitFrom n taken bs = some (front, rest)) :
    ∃ mid, front = taken.reverse ++ mid ∧ bs = mid ++ rest ∧ mid.length = n := by
  induction n generalizing taken bs with
  | zero =>
    cases h
    exact ⟨[], by simp, rfl, rfl⟩
  | succ n ih =>
    cases bs with
    | nil => cases h
    | cons b bs =>
      obtain ⟨mid, hfront, hbs, hlen⟩ := ih h
      exact ⟨b :: mid, by simp [hfront], by rw [hbs]; rfl, by rw [List.length_cons, hlen]⟩

theorem ofText_of_toText? {bs : Bytes} {s : String} (h : toText? bs = some s) : ofText s = bs := by
  unfold toText? String.fromUTF8? at h
  split at h
  · cases h
    rw [ofText, toList_eq_data, String.toUTF8_eq_toByteArray]
    rfl
  · cases h

end Bytes

theorem map_eq_of_forall₂ {α β : Type} {f : α → β} {as : List α} {bs : List β}
    (h : List.Forall₂ (fun a b => f a = b) as bs) : as.map f = bs := by
  induction h with
  | nil => rfl
  | cons hab _ ih => rw [List.map_cons, hab, ih]

/-! ## Readers that succeed -/

namespace Reader

variable {α β : Type} {c c' : Cursor}

theorem bind_ok {r : Reader α} {f : α → Reader β} {b : β} :
    (r >>= f) c = .ok (b, c') ↔ ∃ a mid, r c = .ok (a, mid) ∧ f a mid = .ok (b, c') := by
  change Reader.bind r f c = _ ↔ _
  rw [Reader.bind]
  cases r c with
  | ok p =>
    obtain ⟨a, mid⟩ := p
    simp
  | error e => simp

theorem pure_ok {a b : α} : (Pure.pure a : Reader α) c = .ok (b, c') ↔ a = b ∧ c = c' := by
  change Reader.pure a c = _ ↔ _
  rw [Reader.pure, Except.ok.injEq, Prod.mk.injEq]

theorem take_eq_ok {n : Nat} {bs : Bytes} (h : take n c = .ok (bs, c')) :
    c.rest = bs ++ c'.rest ∧ bs.length = n := by
  unfold take at h
  split at h
  · rename_i front rest hsplit
    cases h
    obtain ⟨mid, rfl, hrest, hlen⟩ := Bytes.splitFrom_eq_some hsplit
    exact ⟨by simpa using hrest, by simpa using hlen⟩
  · cases h

theorem number_eq_ok {width n : Nat} (h : number width c = .ok (n, c')) :
    c.rest = Bytes.ofNat width n ++ c'.rest ∧ n < 256 ^ width := by
  obtain ⟨bs, mid, htake, hpure⟩ := bind_ok.1 h
  obtain ⟨rfl, rfl⟩ := pure_ok.1 hpure
  obtain ⟨hrest, rfl⟩ := take_eq_ok htake
  rw [Bytes.ofNat_toNat]
  exact ⟨hrest, Bytes.toNat_lt bs⟩

theorem word_eq_ok {w : UInt16} (h : word c = .ok (w, c')) : c.rest = Bytes.word w ++ c'.rest := by
  obtain ⟨n, mid, hnumber, hpure⟩ := bind_ok.1 h
  obtain ⟨rfl, rfl⟩ := pure_ok.1 hpure
  obtain ⟨hrest, hlt⟩ := number_eq_ok hnumber
  rw [hrest, Bytes.word, show n.toUInt16.toNat = n from UInt16.toNat_ofNat_of_lt hlt]

theorem byte_eq_ok {b : UInt8} (h : byte c = .ok (b, c')) : c.rest = b :: c'.rest := by
  obtain ⟨n, mid, hnumber, hpure⟩ := bind_ok.1 h
  obtain ⟨rfl, rfl⟩ := pure_ok.1 hpure
  obtain ⟨hrest, -⟩ := number_eq_ok hnumber
  rw [hrest]
  simp [Bytes.ofNat]

theorem modifiers_eq_ok {m : Modifiers} (h : modifiers c = .ok (m, c')) : c.rest = Bytes.word m.bits ++ c'.rest := by
  obtain ⟨w, mid, hword, hpure⟩ := bind_ok.1 h
  obtain ⟨rfl, rfl⟩ := pure_ok.1 hpure
  exact word_eq_ok hword

/-- Items that are read one by one were written one by one. -/
theorem itemsFrom_eq_ok {item : Nat → Reader α} {W : α → Bytes → Prop}
    (hitem : ∀ i c a c', item i c = .ok (a, c') → ∃ bs, W a bs ∧ c.rest = bs ++ c'.rest) {n i : Nat} {acc as : List α}
    (h : itemsFrom item n i acc c = .ok (as, c')) :
    ∃ new chunks, as = acc.reverse ++ new ∧ new.length = n ∧ List.Forall₂ W new chunks ∧
      c.rest = chunks.flatten ++ c'.rest := by
  induction n generalizing i acc c with
  | zero =>
    cases h
    exact ⟨[], [], by simp, rfl, .nil, rfl⟩
  | succ n ih =>
    rw [itemsFrom] at h
    dsimp only at h
    split at h
    · rename_i a mid hread
      obtain ⟨bs, hbs, hrest⟩ := hitem i c a mid hread
      obtain ⟨new, chunks, rfl, hlen, hchunks, hmid⟩ := ih h
      refine ⟨a :: new, bs :: chunks, by simp, by rw [List.length_cons, hlen], .cons hbs hchunks, ?_⟩
      rw [hrest, hmid, List.flatten_cons, List.append_assoc]
    · cases h

theorem items_eq_ok {item : Nat → Reader α} {W : α → Bytes → Prop}
    (hitem : ∀ i c a c', item i c = .ok (a, c') → ∃ bs, W a bs ∧ c.rest = bs ++ c'.rest) {n : Nat} {as : List α}
    (h : items n item c = .ok (as, c')) :
    as.length = n ∧ ∃ chunks, List.Forall₂ W as chunks ∧ c.rest = chunks.flatten ++ c'.rest := by
  obtain ⟨new, chunks, rfl, hlen, hchunks, hrest⟩ := itemsFrom_eq_ok hitem h
  exact ⟨hlen, chunks, hchunks, hrest⟩

/-- A table was written as its count and its items. -/
theorem table_eq_ok {item : Reader α} {W : α → Bytes → Prop}
    (hitem : ∀ c a c', item c = .ok (a, c') → ∃ bs, W a bs ∧ c.rest = bs ++ c'.rest) {as : List α} (what : Countable)
    (h : table item c = .ok (as, c')) :
    ∃ count chunks, Bytes.count what as.length = .ok count ∧ List.Forall₂ W as chunks ∧
      c.rest = count ++ (chunks.flatten ++ c'.rest) := by
  obtain ⟨n, mid, hword, hitems⟩ := bind_ok.1 h
  obtain ⟨hlen, chunks, hchunks, hrest⟩ := items_eq_ok (fun _ => hitem) hitems
  refine ⟨Bytes.word n, chunks, ?_, hchunks, ?_⟩
  · rw [Bytes.count, hlen, if_pos n.toNat_lt]
    rfl
  · rw [word_eq_ok hword, hrest]

theorem constant_eq_ok {i : Nat} {x : Constant} (h : constant i c = .ok (x, c')) :
    ∃ bs, x.encode = .ok bs ∧ c.rest = bs ++ c'.rest := by
  obtain ⟨o, mid, hoffset, h⟩ := bind_ok.1 h
  cases hoffset
  obtain ⟨tag, mid, hbyte, h⟩ := bind_ok.1 h
  rw [byte_eq_ok hbyte]
  suffices hpayload : ∃ payload, x.payload = .ok payload ∧ x.tag = tag ∧ mid.rest = payload ++ c'.rest by
    obtain ⟨payload, hpayload, rfl, hrest⟩ := hpayload
    refine ⟨x.tag :: payload, ?_, by rw [hrest]; rfl⟩
    rw [Constant.encode, hpayload]
    rfl
  split at h
  · obtain ⟨size, mid', hsize, h⟩ := bind_ok.1 h
    obtain ⟨text, mid'', htake, h⟩ := bind_ok.1 h
    obtain ⟨hrest, hlen⟩ := take_eq_ok htake
    cases htext : Bytes.toText? text with
    | some s =>
      rw [htext] at h
      obtain ⟨rfl, rfl⟩ := pure_ok.1 h
      have hbytes := Bytes.ofText_of_toText? htext
      refine ⟨Bytes.word size ++ text, ?_, rfl, by rw [word_eq_ok hsize, hrest, List.append_assoc]⟩
      rw [Constant.payload, hbytes, Bytes.count, hlen, if_pos size.toNat_lt]
      rfl
    | none =>
      rw [htext] at h
      cases h
  · obtain ⟨n, mid', hn, h⟩ := bind_ok.1 h
    obtain ⟨rfl, rfl⟩ := pure_ok.1 h
    obtain ⟨hrest, hlt⟩ := number_eq_ok hn
    refine ⟨_, rfl, rfl, ?_⟩
    rw [UInt32.toUInt32_toInt32, show n.toUInt32.toNat = n from UInt32.toNat_ofNat_of_lt hlt, hrest]
  · obtain ⟨n, mid', hn, h⟩ := bind_ok.1 h
    obtain ⟨rfl, rfl⟩ := pure_ok.1 h
    obtain ⟨hrest, hlt⟩ := number_eq_ok hn
    refine ⟨_, rfl, rfl, ?_⟩
    rw [UInt64.toUInt64_toInt64, show n.toUInt64.toNat = n from UInt64.toNat_ofNat_of_lt hlt, hrest]
  · obtain ⟨n, mid', hn, h⟩ := bind_ok.1 h
    obtain ⟨rfl, rfl⟩ := pure_ok.1 h
    obtain ⟨hrest, hlt⟩ := number_eq_ok hn
    refine ⟨_, rfl, rfl, ?_⟩
    rw [show n.toUInt64.toNat = n from UInt64.toNat_ofNat_of_lt hlt, hrest]
  · obtain ⟨w, mid', hw, h⟩ := bind_ok.1 h
    obtain ⟨rfl, rfl⟩ := pure_ok.1 h
    exact ⟨_, rfl, rfl, word_eq_ok hw⟩
  · obtain ⟨w, mid', hw, h⟩ := bind_ok.1 h
    obtain ⟨rfl, rfl⟩ := pure_ok.1 h
    exact ⟨_, rfl, rfl, word_eq_ok hw⟩
  · obtain ⟨u, m₁, hu, h⟩ := bind_ok.1 h
    obtain ⟨v, m₂, hv, h⟩ := bind_ok.1 h
    obtain ⟨w, m₃, hw, h⟩ := bind_ok.1 h
    obtain ⟨rfl, rfl⟩ := pure_ok.1 h
    refine ⟨_, rfl, rfl, ?_⟩
    rw [word_eq_ok hu, word_eq_ok hv, word_eq_ok hw, List.append_assoc, List.append_assoc]
  · obtain ⟨u, m₁, hu, h⟩ := bind_ok.1 h
    obtain ⟨v, m₂, hv, h⟩ := bind_ok.1 h
    obtain ⟨w, m₃, hw, h⟩ := bind_ok.1 h
    obtain ⟨rfl, rfl⟩ := pure_ok.1 h
    refine ⟨_, rfl, rfl, ?_⟩
    rw [word_eq_ok hu, word_eq_ok hv, word_eq_ok hw, List.append_assoc, List.append_assoc]
  · cases h

theorem innerInfo_eq_ok {i : InnerInfo} (h : innerInfo c = .ok (i, c')) : c.rest = i.encode ++ c'.rest := by
  simp only [innerInfo, bind_ok, pure_ok] at h
  obtain ⟨inner, _, hinner, outer, _, houter, simple, _, hsimple, access, _, haccess, rfl, rfl⟩ := h
  rw [word_eq_ok hinner, word_eq_ok houter, word_eq_ok hsimple, modifiers_eq_ok haccess]
  simp [InnerInfo.encode]

theorem fieldInfo_eq_ok {f : FieldInfo} (h : fieldInfo c = .ok (f, c')) : c.rest = f.encode ++ c'.rest := by
  simp only [fieldInfo, bind_ok, pure_ok] at h
  obtain ⟨access, _, haccess, name, _, hname, descriptor, _, hdescriptor, rfl, rfl⟩ := h
  rw [modifiers_eq_ok haccess, word_eq_ok hname, word_eq_ok hdescriptor]
  simp [FieldInfo.encode]

theorem methodInfo_eq_ok {m : MethodInfo} (h : methodInfo c = .ok (m, c')) :
    ∃ bs, m.encode = .ok bs ∧ c.rest = bs ++ c'.rest := by
  simp only [methodInfo, bind_ok, pure_ok] at h
  obtain ⟨access, _, haccess, name, _, hname, descriptor, _, hdescriptor, locals, _, hlocals, size, _, hsize, code, _, hcode,
    rfl, rfl⟩ := h
  obtain ⟨hrest, hlen⟩ := take_eq_ok hcode
  obtain ⟨hsize, hlt⟩ := number_eq_ok hsize
  refine ⟨Bytes.word access.bits ++ Bytes.word name ++ Bytes.word descriptor ++ Bytes.word locals ++
    Bytes.ofNat 4 size ++ code, ?_, ?_⟩
  · simp only [MethodInfo.encode, Bytes.longCount, List.size_toArray, hlen]
    rw [if_pos (show size < 4294967296 from hlt)]
    rfl
  · rw [modifiers_eq_ok haccess, word_eq_ok hname, word_eq_ok hdescriptor, word_eq_ok hlocals, hsize, hrest]
    simp only [List.append_assoc]

/-- The rule for a reader that fails first of all under a condition. -/
theorem failIf_ok {p : Prop} [Decidable p] {e : FormatError} {k : Unit → Reader α} {a : α} :
    (if p then (fail e : Reader Unit) >>= k else k ()) c = .ok (a, c') ↔ ¬p ∧ k () c = .ok (a, c') := by
  split
  · rename_i hp
    simp only [bind_ok, hp, not_true_eq_false, false_and, iff_false]
    rintro ⟨_, _, hfail, -⟩
    cases hfail
  · rename_i hp
    simp [hp]

theorem classFile_eq_ok {f : ClassFile} (h : classFile c = .ok (f, c')) :
    ∃ bs, f.encode = .ok bs ∧ c.rest = bs ++ c'.rest := by
  simp only [classFile, failIf_ok, bind_ok, pure_ok] at h
  obtain ⟨magic, _, hmagic, hmagicEq, major, _, hmajor, minor, _, hminor, -, count, _, hcount, -, constants, _, hconstants,
    access, _, haccess, this, _, hthis, super, _, hsuper, inner, _, hinner, fields, _, hfields, methods, _, hmethods,
    rfl, rfl⟩ := h
  obtain ⟨hmagic, -⟩ := number_eq_ok hmagic
  rw [not_not.1 hmagicEq] at hmagic
  obtain ⟨hlen, cs, hcs, hconstants⟩ := items_eq_ok (fun _ _ _ _ => constant_eq_ok) hconstants
  obtain ⟨ni, is, hni, his, hinner⟩ := table_eq_ok (W := fun a bs => a.encode = bs)
    (fun _ a _ h => ⟨a.encode, rfl, innerInfo_eq_ok h⟩) .innerClass hinner
  obtain ⟨nf, fs, hnf, hfs, hfields⟩ := table_eq_ok (W := fun a bs => a.encode = bs)
    (fun _ a _ h => ⟨a.encode, rfl, fieldInfo_eq_ok h⟩) .field hfields
  obtain ⟨nm, ms, hnm, hms, hmethods⟩ := table_eq_ok (fun _ _ _ => methodInfo_eq_ok) .method hmethods
  obtain rfl := map_eq_of_forall₂ his
  obtain rfl := map_eq_of_forall₂ hfs
  have hcn : Bytes.count .constant constants.toArray.size = .ok (Bytes.word count) := by
    rw [List.size_toArray, hlen, Bytes.count, if_pos count.toNat_lt]
    rfl
  refine ⟨Bytes.ofNat 4 ClassFile.magic ++ Bytes.word major ++ Bytes.word minor ++ Bytes.word count ++ cs.flatten ++
    Bytes.word access.bits ++ Bytes.word this ++ Bytes.word super ++ ni ++ inner.flatMap InnerInfo.encode ++ nf ++
    fields.flatMap FieldInfo.encode ++ nm ++ ms.flatten, ?_, ?_⟩
  · simp only [ClassFile.encode, bind_eq_ok, pure_eq_ok]
    exact ⟨_, hcn, cs, mapM_eq_ok.2 hcs, ni, hni, nf, hnf, nm, hnm, ms, mapM_eq_ok.2 hms, rfl⟩
  · rw [hmagic, word_eq_ok hmajor, word_eq_ok hminor, word_eq_ok hcount, hconstants, modifiers_eq_ok haccess,
      word_eq_ok hthis, word_eq_ok hsuper, hinner, hfields, hmethods]
    simp only [List.append_assoc, List.flatMap_def]

end Reader

/-- A class file that was read is written as the bytes that it was read from, so no other bytes are read as it. -/
theorem ClassFile.encode_decode {bs : Bytes} {f : ClassFile} (h : decode bs = .ok f) :
    f.encode = .ok bs ∧ ∀ bs', decode bs' = .ok f → bs' = bs := by
  have hwritten : ∀ {xs : Bytes}, decode xs = .ok f → f.encode = .ok xs := by
    intro xs hxs
    unfold decode at hxs
    split at hxs
    · rename_i g c hread
      split at hxs
      · rename_i hempty
        cases hxs
        obtain ⟨written, hencode, hrest⟩ := Reader.classFile_eq_ok hread
        rw [List.isEmpty_iff.1 hempty, List.append_nil] at hrest
        rw [hencode, ← hrest]
      · cases hxs
    · cases hxs
  refine ⟨hwritten h, fun bs' h' => ?_⟩
  have heq := (hwritten h').symm.trans (hwritten h)
  cases heq
  rfl

theorem ClassFile.encode_decode_oddBytes :
    decode oddBytes = .ok oddExample ∧ oddExample.encode = .ok oddBytes ∧
      ∀ bs, decode bs = .ok oddExample → bs = oddBytes := by
  have hdecode : decode oddBytes = .ok oddExample := by cbv
  exact ⟨hdecode, encode_decode hdecode⟩

end ClassTree
