import ClassTree.Proofs.ClassFile.Canonical

/-!
# Where the bytes of a class file end

A class file says in its own bytes where they end. `Reader.Steady r`: what the reader `r` finds it finds without the bytes that
are left, and if one of those that it went over is missing, it says where the bytes end too soon. That is so of every step of
reading (`Reader.Steady.take`) and of all that is put together from such steps, and so of reading a class file
(`Reader.Steady.classFile`). Hence no bytes of a class file are the beginning of those of another
(`ClassFile.encode_delimited`).
-/

namespace ClassTree

theorem Bytes.splitFrom_of_le {n : Nat} {taken bs : Bytes} (h : n ≤ bs.length) :
    splitFrom n taken bs = some (taken.reverse ++ bs.take n, bs.drop n) := by
  induction n generalizing taken bs with
  | zero => simp [splitFrom]
  | succ n ih =>
    cases bs with
    | nil => simp at h
    | cons b bs =>
      rw [splitFrom, ih (by simpa using h)]
      simp

theorem Bytes.splitFrom_of_lt {n : Nat} {taken bs : Bytes} (h : bs.length < n) : splitFrom n taken bs = none := by
  induction n generalizing taken bs with
  | zero => simp at h
  | succ n ih =>
    cases bs with
    | nil => rfl
    | cons b bs =>
      rw [splitFrom]
      exact ih (by simpa using h)

namespace Reader

/-! ## Readings of bytes that are cut short -/

/-- What the reader finds does not depend on bytes that it leaves. If bytes at the end are cut off, it finds the same as long as
none is missing, and otherwise says that the bytes end too soon, at an offset up to where they end. -/
def Steady {α : Type} (r : Reader α) : Prop :=
  ∀ ⦃front back : Bytes⦄ ⦃offset : Nat⦄ ⦃a : α⦄ ⦃c : Cursor⦄, r ⟨front ++ back, offset⟩ = .ok (a, c) →
    (∃ rest, r ⟨front, offset⟩ = .ok (a, ⟨rest, c.offset⟩) ∧ c.rest = rest ++ back ∧
      c.offset + rest.length = offset + front.length) ∨
    ∃ o, r ⟨front, offset⟩ = .error (.truncated o) ∧ o ≤ offset + front.length

namespace Steady

variable {α β : Type} {r : Reader α} {f : α → Reader β}

theorem pure (a : α) : Steady (Pure.pure a : Reader α) := by
  intro front back offset b c h
  obtain ⟨rfl, rfl⟩ := pure_ok.1 h
  exact .inl ⟨front, rfl, rfl, rfl⟩

theorem fail (e : FormatError) : Steady (Reader.fail e : Reader α) := by
  intro front back offset a c h
  cases h

theorem offset : Steady Reader.offset := by
  intro front back o a c h
  cases h
  exact .inl ⟨front, rfl, rfl, rfl⟩

/-- One reader after the other: the second meets the bytes that the first left, cut short as before. -/
theorem bind (hr : Steady r) (hf : ∀ a, Steady (f a)) : Steady (r >>= f) := by
  intro front back offset b c h
  obtain ⟨a, ⟨mid, o⟩, ha, hb⟩ := bind_ok.1 h
  have hbind : r >>= f = Reader.bind r f := rfl
  rw [hbind, Reader.bind]
  rcases hr ha with ⟨rest, hread, hrest, hlength⟩ | ⟨o', hread, hle⟩
  · dsimp only at hread hrest hlength
    subst hrest
    rw [hread, ← hlength]
    exact hf a hb
  · rw [hread]
    exact .inr ⟨o', rfl, hle⟩

theorem map {g : α → β} (hr : Steady r) : Steady (r >>= fun a => Pure.pure (g a)) := hr.bind fun _ => pure _

/-- The only step that goes over bytes. -/
theorem take (n : Nat) : Steady (Reader.take n) := by
  intro front back offset bs c h
  by_cases hn : n ≤ front.length
  · left
    have hall : n ≤ (front ++ back).length := by
      rw [List.length_append]
      omega
    rw [Reader.take, Bytes.split?, Bytes.splitFrom_of_le hall] at h
    cases h
    rw [Reader.take, Bytes.split?, Bytes.splitFrom_of_le hn, List.take_append_of_le_length hn, List.drop_append_of_le_length hn]
    refine ⟨front.drop n, rfl, rfl, ?_⟩
    dsimp only
    rw [List.length_drop]
    omega
  · refine .inr ⟨offset, ?_, Nat.le_add_right _ _⟩
    rw [Reader.take, Bytes.split?, Bytes.splitFrom_of_lt (Nat.lt_of_not_le hn)]

theorem number (width : Nat) : Steady (Reader.number width) := (take width).map

theorem byte : Steady Reader.byte := (number 1).map

theorem word : Steady Reader.word := (number 2).map

theorem modifiers : Steady Reader.modifiers := word.map

theorem itemsFrom {item : Nat → Reader α} (h : ∀ i, Steady (item i)) (n i : Nat) (acc : List α) :
    Steady (Reader.itemsFrom item n i acc) := by
  induction n generalizing i acc with
  | zero => exact pure acc.reverse
  | succ n ih => exact (h i).bind fun a => ih (i + 1) (a :: acc)

theorem items {item : Nat → Reader α} (h : ∀ i, Steady (item i)) (n : Nat) : Steady (Reader.items n item) :=
  itemsFrom h n 1 []

theorem table {item : Reader α} (h : Steady item) : Steady (Reader.table item) :=
  word.bind fun n => items (fun _ => h) n.toNat

/-- The rule for a reader that fails first of all under a condition. -/
theorem failIf {p : Prop} [Decidable p] {e : FormatError} {k : Unit → Reader α} (h : Steady (k ())) :
    Steady (if p then (Reader.fail e : Reader Unit) >>= k else k ()) := by
  split
  · exact (fail e).bind fun _ => h
  · exact h

theorem constant (index : Nat) : Steady (Reader.constant index) := by
  refine offset.bind fun start => byte.bind fun tag => ?_
  split
  · refine word.bind fun size => (take size.toNat).bind fun text => ?_
    split
    · exact pure _
    · exact fail _
  · exact (number 4).map
  · exact (number 8).map
  · exact (number 8).map
  · exact word.map
  · exact word.map
  · exact word.bind fun _ => word.bind fun _ => word.map
  · exact word.bind fun _ => word.bind fun _ => word.map
  · exact fail _

theorem innerInfo : Steady Reader.innerInfo := word.bind fun _ => word.bind fun _ => word.bind fun _ => modifiers.map

theorem fieldInfo : Steady Reader.fieldInfo := modifiers.bind fun _ => word.bind fun _ => word.map

theorem methodInfo : Steady Reader.methodInfo :=
  modifiers.bind fun _ => word.bind fun _ => word.bind fun _ => word.bind fun _ => (number 4).bind fun size => (take size).map

theorem classFile : Steady Reader.classFile := by
  refine (number 4).bind fun magic => failIf ?_
  refine word.bind fun major => word.bind fun minor => failIf ?_
  refine word.bind fun count => failIf ((items constant count.toNat).bind fun constants => ?_)
  refine modifiers.bind fun access => word.bind fun this => word.bind fun super => ?_
  exact (table innerInfo).bind fun inner => (table fieldInfo).bind fun fields => (table methodInfo).map

end Steady

end Reader

namespace ClassFile

variable {f : ClassFile} {bytes : Bytes}

/-- A part of the bytes of a class file is never read as one: the reader says that they end too soon. -/
theorem decode_cut (hread : Reads Reader.classFile bytes f) {front : Bytes} (h : front <+: bytes) (hne : front ≠ bytes) :
    ∃ o ≤ front.length, decode front = .error (.truncated o) := by
  obtain ⟨back, rfl⟩ := h
  have hall := hread [] 0
  rw [List.append_nil] at hall
  rcases Reader.Steady.classFile hall with ⟨rest, -, hrest, -⟩ | ⟨o, htruncated, hle⟩
  · obtain ⟨-, rfl⟩ := List.nil_eq_append_iff.1 hrest
    exact absurd (List.append_nil front).symm hne
  · refine ⟨o, by simpa using hle, ?_⟩
    rw [decode, htruncated]

/-- Bytes behind those of a class file are counted. -/
theorem decode_extended (hread : Reads Reader.classFile bytes f) {extra : Bytes} (hne : extra ≠ []) :
    decode (bytes ++ extra) = .error (.trailingBytes extra.length) := by
  rw [decode, hread extra 0]
  exact if_neg (by simpa using hne)

/-- The bytes of a class file tell where they end. A part of them is refused because it ends too soon, at an offset that is not
beyond its end, and with bytes behind them they are refused because of as many bytes. So they are not the beginning of the bytes
of another class file. -/
theorem encode_delimited (hmajor : f.major = majorVersion) (hconstants : f.constants.size ≤ Pool.maxEntries)
    (h : f.encode = .ok bytes) :
    (∀ front, front <+: bytes → front ≠ bytes → ∃ o ≤ front.length, decode front = .error (.truncated o)) ∧
      (∀ extra, extra ≠ [] → decode (bytes ++ extra) = .error (.trailingBytes extra.length)) ∧
      ∀ (g : ClassFile) (bytes' : Bytes), g.major = majorVersion → g.constants.size ≤ Pool.maxEntries →
        g.encode = .ok bytes' → bytes <+: bytes' → g = f ∧ bytes' = bytes := by
  have hread := Reads.classFile hmajor hconstants h
  refine ⟨fun front hfront hne => decode_cut hread hfront hne, fun extra hne => decode_extended hread hne, ?_⟩
  intro g bytes' hmajor' hconstants' h' hbytes
  have hdecode : decode bytes = .ok f := hread.decode
  have hread' := Reads.classFile hmajor' hconstants' h'
  have hsame : bytes = bytes' := by
    by_contra hne
    obtain ⟨o, -, htruncated⟩ := decode_cut hread' hbytes hne
    rw [hdecode] at htruncated
    cases htruncated
  subst hsame
  exact ⟨Except.ok.inj (hread'.decode.symm.trans hdecode), rfl⟩

/-- Bytes that end within a text, and bytes with one too many. -/
theorem encode_delimited_oddExample :
    oddExample.major = majorVersion ∧ oddExample.constants.size ≤ Pool.maxEntries ∧ oddExample.encode = .ok oddBytes ∧
      (∃ o ≤ 14, decode (oddBytes.take 14) = .error (.truncated o)) ∧
      decode (oddBytes ++ [0]) = .error (.trailingBytes 1) := by
  have hencode : oddExample.encode = .ok oddBytes := by cbv
  obtain ⟨hcut, hextended, -⟩ := encode_delimited (f := oddExample) rfl (by decide) hencode
  exact ⟨rfl, by decide, hencode, hcut _ (List.take_prefix 14 oddBytes) (by decide), hextended [0] (by simp)⟩

end ClassFile

end ClassTree
