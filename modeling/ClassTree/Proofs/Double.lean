import Mathlib.Tactic.Ring
import ClassTree.Double

/-!
# Doubles as numbers

`Double.Reads d s u`: the double `d` is the finite number `± u · 2⁻¹⁰⁷⁴`, a whole number of the smallest unit that doubles
have. The double nearest to an integer below 2⁵³ is that integer, and the double nearest to another is none below 2⁵³
(`reads_ofInt_small`, `reads_ofInt_large`). So an `int` and a `long` are equal as doubles only if they are equal
(`equal_ofInt_iff`). Doubles of the same sign that are the same number are the same double (`eq_of_reads`).
-/

namespace ClassTree.Double

/-- The smallest unit of doubles is `2⁻¹⁰⁷⁴`. -/
def lowest : Nat := 1074

/-- The double is the number `± u · 2⁻¹⁰⁷⁴`. -/
def Reads (d : Double) (s : Bool) (u : Nat) : Prop :=
  ∃ m q, d.read = .finite s m q ∧ -1074 ≤ q ∧ m * 2 ^ (q + 1074).toNat = u

theorem signed_mul (s : Bool) (m k : Nat) : signed s (m * k) = signed s m * k := by
  cases s <;> simp [signed]

theorem equal_comm (a b : Double) : a.equal b = b.equal a := by
  rw [Bool.eq_iff_iff]
  unfold equal compare?
  cases a.read with
  | nan => cases b.read <;> simp
  | infinite s =>
    cases b.read with
    | nan => simp
    | infinite t => cases s <;> cases t <;> simp
    | finite t n r => cases s <;> simp
  | finite s m q =>
    cases b.read with
    | nan => simp
    | infinite t => cases t <;> simp
    | finite t n r =>
      simp only [decide_eq_true_eq, Option.some.injEq, Std.compare_eq_iff_eq, min_comm q r]
      exact eq_comm

/-- Finite doubles are equal if they are as many units. -/
theorem equal_iff {a b : Double} {s t : Bool} {u v : Nat} (ha : a.Reads s u) (hb : b.Reads t v) :
    a.equal b = true ↔ signed s u = signed t v := by
  obtain ⟨m, q, hra, hq, rfl⟩ := ha
  obtain ⟨n, r, hrb, hr, rfl⟩ := hb
  -- Both are compared in the smaller of their units, which is a multiple of the smallest one.
  obtain ⟨k, hk⟩ : ∃ k : Nat, min q r = k - 1074 := ⟨(min q r + 1074).toNat, by omega⟩
  have hpos : ((2 ^ k : Nat) : Int) ≠ 0 := Int.natCast_ne_zero.2 (Nat.two_pow_pos k).ne'
  have hleft : (q + 1074).toNat = (q - min q r).toNat + k := by omega
  have hright : (r + 1074).toNat = (r - min q r).toNat + k := by omega
  simp only [equal, compare?, hra, hrb, decide_eq_true_eq, Option.some.injEq, Std.compare_eq_iff_eq, Nat.shiftLeft_eq]
  rw [hleft, hright, Nat.pow_add, Nat.pow_add, ← Nat.mul_assoc, ← Nat.mul_assoc, signed_mul s (m * _), signed_mul t (n * _)]
  exact (mul_left_inj' hpos).symm

/-! ## Magnitudes -/

theorem toNat_withSign {s : Bool} {n : Nat} (h : n < 2 ^ 63) :
    (withSign s n).bits.toNat = (if s then 2 ^ 63 else 0) + n := by
  cases s
  · simp only [withSign, Bool.false_eq_true, if_false, Nat.zero_add]
    exact UInt64.toNat_ofNat_of_lt' (by change _ < 2 ^ 64; omega)
  · simp only [withSign, if_true]
    exact UInt64.toNat_ofNat_of_lt' (by change _ < 2 ^ 64; omega)

theorem isNegative_withSign {s : Bool} {n : Nat} (h : n < 2 ^ 63) : (withSign s n).isNegative = s := by
  have hbits := toNat_withSign (s := s) h
  have hshift : ((withSign s n).bits >>> 63).toNat = (withSign s n).bits.toNat / 2 ^ 63 := by
    rw [UInt64.toNat_shiftRight, Nat.shiftRight_eq_div_pow]
    rfl
  simp only [isNegative, ← UInt64.toNat_inj, hshift, hbits]
  cases s
  · simp only [Bool.false_eq_true, if_false, decide_eq_false_iff_not]
    change ¬ _ = 1
    omega
  · simp only [if_true, decide_eq_true_eq]
    change _ = 1
    omega

/-- The number of a magnitude that is neither subnormal nor infinite. -/
theorem reads_withSign {s : Bool} {e mantissa : Nat} (hlow : fractions ≤ mantissa) (hhigh : mantissa ≤ 2 * fractions)
    (he : e < 2000) : (withSign s (e * fractions + mantissa)).Reads s (mantissa * 2 ^ e) := by
  have hlt : e * fractions + mantissa < 2 ^ 63 := by
    simp only [fractions] at hhigh ⊢
    omega
  have hbits := toNat_withSign (s := s) hlt
  have hexp : (withSign s (e * fractions + mantissa)).bits.toNat / fractions % 2048 = (e * fractions + mantissa) / fractions := by
    rw [hbits]
    simp only [fractions] at hhigh ⊢
    cases s <;> simp only [if_true, Bool.false_eq_true, if_false] <;> omega
  have hfrac : (withSign s (e * fractions + mantissa)).bits.toNat % fractions = (e * fractions + mantissa) % fractions := by
    rw [hbits]
    simp only [fractions] at hhigh ⊢
    cases s <;> simp only [if_true, Bool.false_eq_true, if_false] <;> omega
  have hread : ∀ x f : Nat, (e * fractions + mantissa) / fractions = x → (e * fractions + mantissa) % fractions = f → 0 < x →
      x < 2047 → (withSign s (e * fractions + mantissa)).read = .finite s (fractions + f) ((x : Int) - 1075) := by
    intro x f hx hf h0 h1
    simp only [read, hexp, hfrac, hx, hf, isNegative_withSign hlt]
    rw [if_neg (by omega), if_neg (by omega)]
  rcases Nat.lt_or_ge mantissa (2 * fractions) with hm | hm
  · refine ⟨mantissa, (e + 1 : Nat) - 1075, ?_, by omega, ?_⟩
    · rw [hread (e + 1) (mantissa - fractions) ?_ ?_ (by omega) (by omega)]
      · rw [Nat.add_sub_cancel' hlow]
      all_goals
        simp only [fractions] at hlow hm ⊢
        omega
    · rw [show ((e + 1 : Nat) - 1075 + 1074 : Int).toNat = e by omega]
  · -- A mantissa that was rounded up into the next binade.
    obtain rfl : mantissa = 2 * fractions := Nat.le_antisymm hhigh hm
    refine ⟨fractions, (e + 2 : Nat) - 1075, ?_, by omega, ?_⟩
    · rw [hread (e + 2) 0 ?_ ?_ (by omega) (by omega)]
      · rfl
      all_goals
        simp only [fractions]
        omega
    · rw [show ((e + 2 : Nat) - 1075 + 1074 : Int).toNat = e + 1 by omega]
      ring

/-! ## Rounding -/

theorem shiftRound_le (m s : Nat) : shiftRound m s ≤ m >>> s + 1 := by
  unfold shiftRound
  dsimp only
  split
  · omega
  · split
    · omega
    · omega

theorem le_shiftRound (m s : Nat) : m >>> s ≤ shiftRound m s := by
  unfold shiftRound
  dsimp only
  split
  · omega
  · split
    · omega
    · omega

/-- An integer below 2⁵³ is a double. -/
theorem reads_ofInt_small {n : Int} (h : n.natAbs < 2 ^ 53) : (ofInt n).Reads (n < 0) (n.natAbs * 2 ^ lowest) := by
  unfold ofInt
  generalize hs : decide (n < 0) = s
  generalize n.natAbs = k at h
  by_cases hk : k = 0
  · subst hk
    refine ⟨0, -1074, ?_, by omega, by rw [Nat.zero_mul, Nat.zero_mul]⟩
    cases s <;> decide
  have hlog : k.log2 ≤ 52 := by
    have := (Nat.log2_lt hk).2 h
    omega
  have hlow : 2 ^ k.log2 ≤ k := Nat.log2_self_le hk
  have hhigh : k < 2 ^ (k.log2 + 1) := Nat.lt_log2_self
  obtain ⟨j, hj⟩ : ∃ j, 52 = k.log2 + j := ⟨52 - k.log2, by omega⟩
  have hunit : max ((0 : Int) + k.log2 - 52) (-1074) = -(j : Int) := by omega
  have hshift : ((0 : Int) - -(j : Int)).toNat = j := by omega
  have hmantissa : fractions ≤ k * 2 ^ j ∧ k * 2 ^ j < 2 * fractions := by
    have hf : fractions = 2 ^ k.log2 * 2 ^ j := by
      rw [← Nat.pow_add, ← hj]
      rfl
    rw [hf]
    refine ⟨Nat.mul_le_mul_right _ hlow, ?_⟩
    rw [← Nat.mul_assoc, Nat.mul_comm 2, ← Nat.pow_succ]
    exact Nat.mul_lt_mul_of_pos_right hhigh (Nat.two_pow_pos j)
  have hexp : (-(j : Int) + 1074).toNat = 1074 - j := by omega
  simp only [round, if_neg hk, hunit, hshift, hexp, Nat.shiftLeft_eq]
  rw [if_pos (show -(j : Int) ≤ 0 by omega), if_pos (by simp only [fractions] at hmantissa ⊢; omega)]
  have hreads := reads_withSign (s := s) (e := 1074 - j) hmantissa.1 (by omega) (by omega)
  rwa [Nat.mul_assoc, ← Nat.pow_add, show j + (1074 - j) = lowest by rw [lowest]; omega] at hreads

/-- The double nearest to a larger integer is not below 2⁵³. -/
theorem reads_ofInt_large {n : Int} (h : 2 ^ 53 ≤ n.natAbs) (hmax : n.natAbs ≤ 2 ^ 63) :
    ∃ s u, (ofInt n).Reads s u ∧ 2 ^ 53 * 2 ^ lowest ≤ u := by
  unfold ofInt
  generalize decide (n < 0) = s
  generalize n.natAbs = k at h hmax
  have hk : k ≠ 0 := by omega
  have hlog : 53 ≤ k.log2 := (Nat.le_log2 hk).2 h
  have hlog' : k.log2 ≤ 63 := by
    have := (Nat.log2_lt (k := 64) hk).2 (by omega)
    omega
  have hlow : 2 ^ k.log2 ≤ k := Nat.log2_self_le hk
  have hhigh : k < 2 ^ (k.log2 + 1) := Nat.lt_log2_self
  obtain ⟨j, hj⟩ : ∃ j, k.log2 = 52 + j := ⟨k.log2 - 52, by omega⟩
  have hunit : max ((0 : Int) + k.log2 - 52) (-1074) = j := by omega
  have hshift : ((j : Int) - 0).toNat = j := by omega
  have hexp : ((j : Int) + 1074).toNat = j + lowest := by
    rw [lowest]
    omega
  have hfloor : fractions ≤ k >>> j ∧ k >>> j < 2 * fractions := by
    rw [Nat.shiftRight_eq_div_pow, Nat.le_div_iff_mul_le (Nat.two_pow_pos j), Nat.div_lt_iff_lt_mul (Nat.two_pow_pos j)]
    rw [hj, Nat.pow_add] at hlow
    rw [hj, show 52 + j + 1 = 53 + j by omega, Nat.pow_add] at hhigh
    exact ⟨hlow, hhigh⟩
  have hle := le_shiftRound k j
  have hge := shiftRound_le k j
  simp only [round, if_neg hk, hunit, hshift, hexp]
  rw [if_neg (show ¬ (j : Int) ≤ 0 by omega), if_pos (by simp only [fractions, lowest] at hfloor ⊢; omega)]
  refine ⟨s, _, reads_withSign (by omega) (by omega) (by rw [lowest]; omega), ?_⟩
  have hpow : 2 ^ 53 * 2 ^ lowest ≤ fractions * 2 ^ (j + lowest) := by
    rw [Nat.pow_add, ← Nat.mul_assoc]
    refine Nat.mul_le_mul_right _ ?_
    calc 2 ^ 53 = fractions * 2 ^ 1 := rfl
      _ ≤ fractions * 2 ^ j := Nat.mul_le_mul_left _ (Nat.pow_le_pow_right (by decide) (by omega))
  exact Nat.le_trans hpow (Nat.mul_le_mul_right _ (by omega))

theorem signed_natAbs (n : Int) (k : Nat) : signed (n < 0) (n.natAbs * k) = n * k := by
  rw [signed_mul]
  congr 1
  by_cases h : n < 0
  · simp only [signed, h, decide_true, if_true]
    omega
  · simp only [signed, h, decide_false, Bool.false_eq_true, if_false]
    omega

/-- An `int` and a `long` are equal as doubles only if they are equal. -/
theorem equal_ofInt_iff (a : Int32) (b : Int64) : (ofInt a.toInt).equal (ofInt b.toInt) = true ↔ a.toInt64 = b := by
  have ha := a.le_toInt
  have ha' := a.toInt_lt
  have hb := b.le_toInt
  have hb' := b.toInt_lt
  rw [← Int64.toInt_inj, Int32.toInt_toInt64]
  have hsmall := reads_ofInt_small (n := a.toInt) (by omega)
  rcases Nat.lt_or_ge b.toInt.natAbs (2 ^ 53) with h | h
  · have hpos : ((2 ^ lowest : Nat) : Int) ≠ 0 := Int.natCast_ne_zero.2 (Nat.two_pow_pos lowest).ne'
    rw [equal_iff hsmall (reads_ofInt_small h), signed_natAbs, signed_natAbs]
    exact mul_left_inj' hpos
  · obtain ⟨s, u, hlarge, hu⟩ := reads_ofInt_large h (by omega)
    rw [equal_iff hsmall hlarge]
    -- The two are far apart, as integers and as doubles.
    have hfar : a.toInt.natAbs * 2 ^ lowest < u := by
      refine Nat.lt_of_lt_of_le (Nat.mul_lt_mul_of_pos_right ?_ (Nat.two_pow_pos lowest)) hu
      omega
    constructor
    · intro heq
      have habs := congrArg Int.natAbs heq
      have hnat : ∀ s k, (signed s k).natAbs = k := by
        intro s k
        cases s <;> simp [signed]
      rw [hnat, hnat] at habs
      omega
    · intro heq
      omega

/-! ## Doubles by their numbers -/

/-- How many units a double is that has an exponent and a fraction. -/
def units (exponent fraction : Nat) : Nat :=
  if exponent = 0 then fraction else (fractions + fraction) * 2 ^ (exponent - 1)

theorem units_lt {e f : Nat} (hf : f < fractions) : units e f < fractions * 2 ^ e := by
  unfold units
  split
  · rename_i he
    rw [he]
    omega
  · obtain ⟨k, rfl⟩ : ∃ k, e = k + 1 := ⟨e - 1, by omega⟩
    calc (fractions + f) * 2 ^ k < (fractions + fractions) * 2 ^ k :=
          Nat.mul_lt_mul_of_pos_right (by omega) (Nat.two_pow_pos k)
      _ = fractions * 2 ^ (k + 1) := by ring

theorem le_units {e f : Nat} (he : 0 < e) : fractions * 2 ^ (e - 1) ≤ units e f := by
  rw [units, if_neg (by omega)]
  exact Nat.mul_le_mul_right _ (Nat.le_add_right _ _)

/-- Doubles with different exponents or fractions are different numbers of units. -/
theorem units_inj {e e' f f' : Nat} (hf : f < fractions) (hf' : f' < fractions) (h : units e f = units e' f') :
    e = e' ∧ f = f' := by
  have hlt : ∀ {e e' f f' : Nat}, f < fractions → e < e' → units e f < units e' f' := by
    intro e e' f f' hf he
    calc units e f < fractions * 2 ^ e := units_lt hf
      _ ≤ fractions * 2 ^ (e' - 1) := Nat.mul_le_mul_left _ (Nat.pow_le_pow_right (by decide) (by omega))
      _ ≤ units e' f' := le_units (by omega)
  rcases Nat.lt_trichotomy e e' with he | rfl | he
  · exact absurd h (hlt hf he).ne
  · refine ⟨rfl, ?_⟩
    unfold units at h
    split at h
    · exact h
    · exact Nat.add_left_cancel (Nat.eq_of_mul_eq_mul_right (Nat.two_pow_pos _) h)
  · exact absurd h (hlt hf' he).ne'

/-- The bits of a finite double say its sign and how many units it is. -/
theorem Reads.parts {d : Double} {s : Bool} {u : Nat} (h : d.Reads s u) :
    d.isNegative = s ∧ units (d.bits.toNat / fractions % 2048) (d.bits.toNat % fractions) = u := by
  obtain ⟨m, q, hread, -, rfl⟩ := h
  unfold read at hread
  dsimp only at hread
  by_cases hmax : d.bits.toNat / fractions % 2048 = 2047
  · rw [if_pos hmax] at hread
    split at hread <;> cases hread
  · rw [if_neg hmax] at hread
    by_cases hmin : d.bits.toNat / fractions % 2048 = 0
    · rw [if_pos hmin] at hread
      obtain ⟨hs, rfl, rfl⟩ := Reading.finite.inj hread
      exact ⟨hs, by simp [units, hmin]⟩
    · rw [if_neg hmin] at hread
      obtain ⟨hs, rfl, rfl⟩ := Reading.finite.inj hread
      refine ⟨hs, ?_⟩
      rw [units, if_neg hmin]
      congr 2
      omega

theorem isNegative_iff (d : Double) : d.isNegative = true ↔ d.bits.toNat / 2 ^ 63 = 1 := by
  have hshift : (d.bits >>> 63).toNat = d.bits.toNat / 2 ^ 63 := by
    rw [UInt64.toNat_shiftRight, Nat.shiftRight_eq_div_pow]
    rfl
  rw [isNegative, decide_eq_true_eq, ← UInt64.toNat_inj, hshift]
  rfl

/-- Sign, exponent and fraction are all that a double has. -/
theorem eq_of_parts {a b : Double} (hs : a.isNegative = b.isNegative)
    (he : a.bits.toNat / fractions % 2048 = b.bits.toNat / fractions % 2048)
    (hf : a.bits.toNat % fractions = b.bits.toNat % fractions) : a = b := by
  have ha := a.bits.toNat_lt
  have hb := b.bits.toNat_lt
  have hsign := a.isNegative_iff
  rw [hs, b.isNegative_iff] at hsign
  obtain ⟨x⟩ := a
  obtain ⟨y⟩ := b
  refine congrArg Double.mk (UInt64.toNat_inj.1 ?_)
  simp only [fractions] at he hf hsign ha hb
  omega

/-- Finite doubles of the same sign that are as many units are the same. -/
theorem eq_of_reads {a b : Double} {s : Bool} {u : Nat} (ha : a.Reads s u) (hb : b.Reads s u) : a = b := by
  obtain ⟨hsa, hua⟩ := ha.parts
  obtain ⟨hsb, hub⟩ := hb.parts
  have hlt : ∀ n, n % fractions < fractions := fun n => Nat.mod_lt n (by decide)
  obtain ⟨he, hf⟩ := units_inj (hlt _) (hlt _) (hua.trans hub.symm)
  exact eq_of_parts (hsa.trans hsb.symm) he hf

theorem reads_of_finite {d : Double} {s : Bool} {m : Nat} {q : Int} (h : d.read = .finite s m q) :
    d.Reads s (m * 2 ^ (q + 1074).toNat) := by
  refine ⟨m, q, h, ?_, rfl⟩
  unfold read at h
  dsimp only at h
  by_cases hmax : d.bits.toNat / fractions % 2048 = 2047
  · rw [if_pos hmax] at h
    split at h <;> cases h
  · rw [if_neg hmax] at h
    split at h
    · rw [← (Reading.finite.inj h).2.2]
    · rw [← (Reading.finite.inj h).2.2]
      omega

/-- The two infinite doubles are told apart by their signs. -/
theorem eq_of_infinite {a b : Double} {s : Bool} (ha : a.read = .infinite s) (hb : b.read = .infinite s) : a = b := by
  have hparts : ∀ {d : Double}, d.read = .infinite s →
      d.isNegative = s ∧ d.bits.toNat / fractions % 2048 = 2047 ∧ d.bits.toNat % fractions = 0 := by
    intro d h
    unfold read at h
    dsimp only at h
    by_cases hmax : d.bits.toNat / fractions % 2048 = 2047
    · rw [if_pos hmax] at h
      split at h
      · rename_i hzero
        exact ⟨Reading.infinite.inj h, hmax, hzero⟩
      · cases h
    · rw [if_neg hmax] at h
      split at h <;> cases h
  obtain ⟨hsa, hea, hfa⟩ := hparts ha
  obtain ⟨hsb, heb, hfb⟩ := hparts hb
  exact eq_of_parts (hsa.trans hsb.symm) (hea.trans heb.symm) (hfa.trans hfb.symm)

/-- A double is equal to itself unless it is no number. -/
theorem equal_self {d : Double} (h : d.isNaN = false) : d.equal d = true := by
  have hnan : d.read ≠ .nan := of_decide_eq_false h
  unfold equal compare?
  cases hread : d.read with
  | nan => exact absurd hread hnan
  | infinite s => simp
  | finite s m q => simp

end ClassTree.Double
