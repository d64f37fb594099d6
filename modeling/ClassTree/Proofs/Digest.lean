import ClassTree.Registry.Entry

/-!
# What digests tell apart

Mixing a word into a running word can be undone, because the separator has an inverse modulo 2⁶⁴
(`Digest.mul_separator_inj`). So a digest keeps apart all that the running word (`Digest.mixParams_inj`) and the word of a single
parameter (`Digest.mixParams_change`) can be, at the positions that have a mark of their own and at those behind them. Digests
that differ in one place only are therefore equal just when the words there are (`Digest.eq_iff_of_single_change`), whichever
hash of texts is taken.
-/

namespace ClassTree

namespace Digest

/-- Undoes the multiplication by the separator. -/
def separatorInverse : UInt64 := 0xd3f20f0a40208825

theorem separator_mul_inverse : separator * separatorInverse = 1 := by decide

theorem mul_separator_inj {g h : UInt64} : g * separator = h * separator ↔ g = h := by
  refine ⟨fun heq => ?_, fun heq => by rw [heq]⟩
  calc g = g * separator * separatorInverse := by rw [UInt64.mul_assoc, separator_mul_inverse, UInt64.mul_one]
    _ = h * separator * separatorInverse := by rw [heq]
    _ = h := by rw [UInt64.mul_assoc, separator_mul_inverse, UInt64.mul_one]

variable {word : String → UInt64}

theorem mixParams_append (i : Nat) (h : UInt64) (ps qs : List String) :
    mixParams word i h (ps ++ qs) = mixParams word (i + ps.length) (mixParams word i h ps) qs := by
  induction ps generalizing i h with
  | nil => rfl
  | cons p ps ih =>
    rw [List.cons_append, mixParams, ih, mixParams, List.length_cons, Nat.add_assoc, Nat.add_comm 1]

/-- Whatever parameters are mixed into them, running words that differ stay different. -/
theorem mixParams_inj {i : Nat} {g h : UInt64} (ps : List String) :
    mixParams word i g ps = mixParams word i h ps ↔ g = h := by
  induction ps generalizing i g h with
  | nil => rfl
  | cons p ps ih => rw [mixParams, mixParams, ih, UInt64.add_left_inj, mul_separator_inj]

/-- Only the word of a parameter counts, at each position. -/
theorem mixParams_change (i : Nat) (h : UInt64) (front back : List String) (p q : String) :
    mixParams word i h (front ++ p :: back) = mixParams word i h (front ++ q :: back) ↔ word p = word q := by
  rw [mixParams_append, mixParams_append, mixParams, mixParams, mixParams_inj, UInt64.add_right_inj, UInt64.xor_right_inj]

/-- Digests of methods and of constructors that differ in one parameter are equal iff the words of its descriptors are; those of
methods that differ in the name, iff the words of the names are; and those that differ in the owner are never equal. -/
theorem eq_iff_of_single_change (word : String → UInt64) (owner owner' : Digest) (name name' : String)
    (params front back : List String) (p q : String) :
    (ofMethodWith word owner name (front ++ p :: back) = ofMethodWith word owner name (front ++ q :: back) ↔
      word p = word q) ∧
    (ofConstructorWith word owner (front ++ p :: back) = ofConstructorWith word owner (front ++ q :: back) ↔
      word p = word q) ∧
    (ofMethodWith word owner name params = ofMethodWith word owner name' params ↔ word name = word name') ∧
    (ofMethodWith word owner name params = ofMethodWith word owner' name params ↔ owner = owner') ∧
    (ofConstructorWith word owner params = ofConstructorWith word owner' params ↔ owner = owner') := by
  have hbits : owner.bits = owner'.bits ↔ owner = owner' := ⟨fun h => congrArg Digest.mk h, congrArg Digest.bits⟩
  simp only [ofMethodWith, ofConstructorWith, Digest.mk.injEq]
  refine ⟨mixParams_change .., mixParams_change .., ?_, ?_, ?_⟩
  · rw [mixParams_inj, UInt64.xor_right_inj]
  · rw [mixParams_inj, UInt64.xor_left_inj, UInt64.xor_right_inj, hbits]
  · rw [mixParams_inj, UInt64.xor_right_inj, hbits]

end Digest

/-- Entries that differ in the type of one parameter have one identity iff the hashes of its descriptors are equal. -/
theorem MethodEntry.digest_change (m : MethodEntry) (front back : List Ty) (t u : Ty) :
    { m with params := front ++ t :: back }.digest = { m with params := front ++ u :: back }.digest ↔
      Digest.xxh64 t.descriptor = Digest.xxh64 u.descriptor := by
  simp only [digest, List.map_append, List.map_cons, Digest.ofMethod, Digest.ofConstructor, Digest.ofMethodWith,
    Digest.ofConstructorWith]
  split
  · rw [Digest.mk.injEq, Digest.mixParams_change]
  · rw [Digest.mk.injEq, Digest.mixParams_change]

end ClassTree
