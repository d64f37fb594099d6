import ClassTree.Proofs.Compile.Small

/-!
# Class files with too many constants

Writing takes as many constants as a 16-bit count can say, and a pool of given constants holds any number of them. Reading
takes one constant less, the most that a pool fills up to. So a class file that can be written is read back unless it has 65535
constants (`ClassFile.exists_decode_iff`), and there are such class files (`ClassFile.exists_decode_iff_full`).

`Refuses r bs e`: the reader `r` fails with `e` on the bytes `bs`, whatever follows them.
-/

namespace ClassTree

/-- The reader fails on bytes, whatever follows them. -/
def Refuses {α : Type} (r : Reader α) (bs : Bytes) (e : FormatError) : Prop :=
  ∀ rest offset, r ⟨bs ++ rest, offset⟩ = .error e

namespace Refuses

variable {α β : Type} {r : Reader α} {f : α → Reader β} {bs cs : Bytes} {a : α} {e : FormatError}

/-- What the first reader finds is read, and the second fails on the bytes behind it. -/
theorem after (hr : Reads r bs a) (hf : Refuses (f a) cs e) : Refuses (r >>= f) (bs ++ cs) e := by
  intro rest offset
  change Reader.bind r f _ = _
  rw [Reader.bind, List.append_assoc, hr]
  exact hf _ _

theorem more (h : Refuses r bs e) (cs : Bytes) : Refuses r (bs ++ cs) e := by
  intro rest offset
  rw [List.append_assoc]
  exact h _ _

theorem failIf {c : Prop} [Decidable c] {k : Unit → Reader β} (hc : c) :
    Refuses (if c then (Reader.fail e : Reader Unit) >>= k else k ()) [] e := by
  intro rest offset
  rw [if_pos hc]
  rfl

/-- The count of constants is the first thing behind the version, and a reader that finds it too great looks no further. -/
theorem classFile {f : ClassFile} {bytes : Bytes} (hmajor : f.major = ClassFile.majorVersion)
    (hconstants : Pool.maxEntries < f.constants.size) (h : f.encode = .ok bytes) :
    Refuses Reader.classFile bytes (.tooMany .constant f.constants.size) := by
  simp only [ClassFile.encode, bind_eq_ok, pure_eq_ok] at h
  obtain ⟨cn, hcn, cs, -, inn, -, fn, -, mn, -, ms, -, rfl⟩ := h
  obtain ⟨hlt, hcount⟩ := Reads.count hcn
  have hnumber : f.constants.size.toUInt16.toNat = f.constants.size := UInt16.toNat_ofNat_of_lt hlt
  rw [← hnumber] at hconstants ⊢
  simp only [List.append_assoc]
  refine after (Reads.number 4 ClassFile.magic (by decide)) ?_
  rw [if_neg (by simp)]
  refine after (Reads.word f.major) (after (Reads.word f.minor) ?_)
  rw [if_neg (by simp [hmajor])]
  exact after hcount ((failIf hconstants).more _)

theorem decode {bytes : Bytes} (h : Refuses Reader.classFile bytes e) : ClassFile.decode bytes = .error e := by
  have hread := h [] 0
  rw [List.append_nil] at hread
  rw [ClassFile.decode, hread]

end Refuses

namespace ClassFile

variable {f : ClassFile} {bytes : Bytes}

/-- What is written can be read, and then gives what was written, iff there are not more constants than a pool fills up to.
Otherwise there are 65535 of them, and reading says that these are too many. -/
theorem exists_decode_iff (hmajor : f.major = majorVersion) (h : f.encode = .ok bytes) :
    ((∃ g, decode bytes = .ok g) ↔ f.constants.size ≤ Pool.maxEntries) ∧
      (f.constants.size ≤ Pool.maxEntries → decode bytes = .ok f) ∧
      (Pool.maxEntries < f.constants.size → f.constants.size = 65535 ∧ decode bytes = .error (.tooMany .constant 65535)) := by
  have hread : f.constants.size ≤ Pool.maxEntries → decode bytes = .ok f :=
    fun hconstants => (Reads.classFile hmajor hconstants h).decode
  have hrefused : Pool.maxEntries < f.constants.size → decode bytes = .error (.tooMany .constant f.constants.size) :=
    fun hconstants => (Refuses.classFile hmajor hconstants h).decode
  refine ⟨⟨?_, fun hconstants => ⟨f, hread hconstants⟩⟩, hread, fun hconstants => ?_⟩
  · rintro ⟨g, hg⟩
    by_contra hconstants
    rw [hrefused (Nat.lt_of_not_le hconstants)] at hg
    cases hg
  · simp only [encode, bind_eq_ok] at h
    obtain ⟨cn, hcn, -⟩ := h
    have hlt : f.constants.size < 65536 := (Reads.count hcn).1
    have hsize : f.constants.size = 65535 := by
      rw [Pool.maxEntries] at hconstants
      omega
    exact ⟨hsize, hsize ▸ hrefused hconstants⟩

/-- A class file whose pool was made of constants that are all the same. -/
def full (n : Nat) : ClassFile where
  constants := (Pool.ofConstants (Array.replicate n (.int 0))).constants
  access := .none
  thisClass := 0
  superClass := 0
  inner := []
  fields := []
  methods := []

theorem exists_encode_full {n : Nat} (h : n < 65536) : ∃ bytes, (full n).encode = .ok bytes := by
  have hconstants : (full n).constants = Array.replicate n (.int 0) := rfl
  refine Small.exists_encode
    ⟨?_, fun c hc => ?_, Nat.zero_lt_succ _, Nat.zero_lt_succ _, Nat.zero_lt_succ _, fun m hm => nomatch hm⟩
  · rw [hconstants, Array.size_replicate]
    exact h
  · rw [hconstants] at hc
    obtain ⟨-, rfl⟩ := Array.mem_replicate.1 (by simpa using hc)
    trivial

/-- With 65534 constants what is written is read back, and with 65535 it is refused. -/
theorem exists_decode_iff_full :
    (∃ bytes, (full 65534).major = majorVersion ∧ (full 65534).encode = .ok bytes ∧ decode bytes = .ok (full 65534)) ∧
      ∃ bytes, (full 65535).major = majorVersion ∧ (full 65535).encode = .ok bytes ∧
        decode bytes = .error (.tooMany .constant 65535) := by
  have hsize : ∀ n, (full n).constants.size = n := fun n => Array.size_replicate
  obtain ⟨bytes, h⟩ := exists_encode_full (n := 65534) (by decide)
  obtain ⟨bytes', h'⟩ := exists_encode_full (n := 65535) (by decide)
  obtain ⟨-, hread, -⟩ := exists_decode_iff rfl h
  obtain ⟨-, -, hrefused⟩ := exists_decode_iff rfl h'
  exact ⟨⟨bytes, rfl, h, hread (by rw [hsize]; decide)⟩, bytes', rfl, h', (hrefused (by rw [hsize]; decide)).2⟩

end ClassFile

end ClassTree
