import ClassTree.Proofs.Double
import ClassTree.Proofs.Pool.Literals

/-!
# What the indices of a pool stand for

* `Constant.Same`: which constants a pool takes as equal, namely doubles that are equal as numbers, or are none, and otherwise the
  same ones.
* `Pool.Sound.add_cases` says all that an addition can do: it finds the first equal constant, or puts the constant behind the
  others, or is refused because the pool is full.
* Every addition that is asked of a pool, of a constant or of an item with all that it refers to, ends in such an addition
  (`Pool.exists_add`). So whatever is added, one addition after the other, an index goes on standing for what it was given out for
  (`Pool.Start.indices_kept`).
-/

namespace ClassTree

/-! ## Constants that are equal -/

namespace Double

theorem canonical_of_zero {d : Double} {s : Bool} {q : Int} (h : d.read = .finite s 0 q) : d.canonical = .zero false := by
  rw [canonical, h]
  rfl

/-- Doubles are equal as constants if they are equal as numbers, or neither of them is a number. -/
theorem canonical_eq_iff {a b : Double} :
    a.canonical = b.canonical ↔ a.equal b = true ∨ a.isNaN = true ∧ b.isNaN = true := by
  constructor
  · intro h
    rcases eq_of_canonical h.symm with rfl | ⟨ha, hb⟩ | ⟨s, rfl, rfl⟩
    · cases hnan : b.isNaN with
      | true => exact .inr ⟨rfl, rfl⟩
      | false => exact .inl (equal_self hnan)
    · exact .inr ⟨ha, hb⟩
    · exact .inl (by cases s <;> decide)
  · rintro (h | ⟨ha, hb⟩)
    · cases hra : a.read with
      | nan => simp [equal, compare?, hra] at h
      | infinite s =>
        cases hrb : b.read with
        | nan => simp [equal, compare?, hra, hrb] at h
        | infinite t =>
          have hs : s = t := by
            cases s <;> cases t <;> simp [equal, compare?, hra, hrb] at h ⊢
          rw [eq_of_infinite hra (hs ▸ hrb)]
        | finite t n r => cases s <;> simp [equal, compare?, hra, hrb] at h
      | finite s m q =>
        cases hrb : b.read with
        | nan => simp [equal, compare?, hra, hrb] at h
        | infinite t => cases t <;> simp [equal, compare?, hra, hrb] at h
        | finite t n r =>
          have hreads := reads_of_finite hra
          have hreads' := reads_of_finite hrb
          have hnumber := (equal_iff hreads hreads').1 h
          have hpos : ∀ k : Nat, 2 ^ k ≠ 0 := fun k => (Nat.two_pow_pos k).ne'
          by_cases hst : s = t
          · subst hst
            have hunits : m * 2 ^ (q + 1074).toNat = n * 2 ^ (r + 1074).toNat := by
              cases s
              · exact Int.natCast_inj.1 hnumber
              · exact Int.natCast_inj.1 (Int.neg_inj.1 hnumber)
            rw [eq_of_reads hreads (hunits ▸ hreads')]
          · -- Of different signs only the zeros are equal.
            have hzero : m * 2 ^ (q + 1074).toNat = 0 ∧ n * 2 ^ (r + 1074).toNat = 0 := by
              generalize m * 2 ^ (q + 1074).toNat = u at hnumber ⊢
              generalize n * 2 ^ (r + 1074).toNat = v at hnumber ⊢
              cases s <;> cases t <;> simp [signed] at hst hnumber ⊢ <;> omega
            obtain rfl : m = 0 := (Nat.mul_eq_zero.1 hzero.1).resolve_right (hpos _)
            obtain rfl : n = 0 := (Nat.mul_eq_zero.1 hzero.2).resolve_right (hpos _)
            rw [canonical_of_zero hra, canonical_of_zero hrb]
    · rw [canonical, canonical, of_decide_eq_true ha, of_decide_eq_true hb]
end Double

/-- Constants that a pool takes as equal. -/
def Constant.Same : Constant → Constant → Prop
  | .double d, .double d' => d.equal d' = true ∨ d.isNaN = true ∧ d'.isNaN = true
  | c, c' => c = c'

theorem Constant.canonical_eq_iff {c c' : Constant} : c.canonical = c'.canonical ↔ c.Same c' := by
  cases c with
  | double d =>
    cases c' with
    | double d' => exact Constant.double.injEq .. ▸ Double.canonical_eq_iff
    | _ => simp [canonical, Same]
  | _ => cases c' <;> simp [canonical, Same]

namespace Pool

variable {p q : Pool} {c : Constant} {i : UInt16}

/-! ## Single additions -/

/-- The constant is the first in the list that is equal to `c`, with `n` others before it. -/
def FirstSame (cs : List Constant) (c : Constant) (n : Nat) : Prop :=
  (∃ k, cs[n]? = some k ∧ k.Same c) ∧ ∀ m < n, ∀ k, cs[m]? = some k → ¬k.Same c

theorem firstSame_iff {cs : List Constant} {n : Nat} :
    cs.findIdx? (·.canonical = c.canonical) = some n ↔ FirstSame cs c n := by
  simp only [List.findIdx?_eq_some_iff_getElem, FirstSame, List.getElem?_eq_some_iff, decide_eq_true_eq,
    Constant.canonical_eq_iff]
  constructor
  · rintro ⟨hlt, hsame, hfirst⟩
    refine ⟨⟨cs[n], ⟨hlt, rfl⟩, hsame⟩, ?_⟩
    rintro m hm k ⟨-, rfl⟩
    exact hfirst m hm
  · rintro ⟨⟨k, ⟨hlt, rfl⟩, hsame⟩, hfirst⟩
    exact ⟨hlt, hsame, fun m hm => hfirst m hm _ ⟨_, rfl⟩⟩

theorem findIdx?_eq_none_iff_same {cs : List Constant} :
    cs.findIdx? (·.canonical = c.canonical) = none ↔ ∀ k ∈ cs, ¬k.Same c := by
  simp only [List.findIdx?_eq_none_iff, decide_eq_false_iff_not, Constant.canonical_eq_iff]

theorem toNat_index {n : Nat} (h : n < maxEntries) : (n + 1).toUInt16.toNat = n + 1 :=
  UInt16.toNat_ofNat_of_lt' (by simp only [maxEntries] at h; change _ < 65536; omega)

/-- All that an addition can do. -/
theorem Sound.add_cases (h : p.Sound) (hsize : p.size ≤ maxEntries) (c : Constant) :
    (∃ n, FirstSame p.constants.toList c n ∧ n < p.size ∧ (p.add c).1.toNat = n + 1 ∧ (p.add c).2 = p) ∨
    (∀ k ∈ p.constants.toList, ¬k.Same c) ∧
      (p.size < maxEntries ∧ (p.add c).1.toNat = p.size + 1 ∧ (p.add c).2.constants = p.constants.push c ∨
        p.size = maxEntries ∧ p.add c = (0, { p with overflowed := true })) := by
  have hindex := h.index c.canonical
  unfold indexIn at hindex
  cases hn : p.constants.toList.findIdx? (·.canonical = c.canonical) with
  | some n =>
    have hfirst := firstSame_iff.1 hn
    obtain ⟨k, hk, -⟩ := hfirst.1
    obtain ⟨hlt, -⟩ := List.getElem?_eq_some_iff.1 hk
    rw [Array.length_toList] at hlt
    rw [hn] at hindex
    refine .inl ⟨n, hfirst, hlt, ?_, ?_⟩
    · simp only [Pool.add, hindex, Option.map_some]
      exact toNat_index (Nat.lt_of_lt_of_le hlt hsize)
    · simp only [Pool.add, hindex, Option.map_some]
  | none =>
    rw [hn] at hindex
    refine .inr ⟨findIdx?_eq_none_iff_same.1 hn, ?_⟩
    by_cases hroom : p.size < maxEntries
    · simp only [Pool.add, hindex, Option.map_none, if_pos hroom]
      exact .inl ⟨hroom, toNat_index hroom, trivial⟩
    · simp only [Pool.add, hindex, Option.map_none, if_neg hroom]
      exact .inr ⟨by omega, trivial⟩

/-- A pool as additions leave it. -/
structure Kept (p : Pool) : Prop extends p.Sound where
  room : p.size ≤ maxEntries

theorem Kept.add (h : p.Kept) (c : Constant) : (p.add c).2.Kept := by
  refine ⟨h.toSound.add c, ?_⟩
  rcases h.toSound.add_cases h.room c with ⟨n, -, -, -, hsame⟩ | ⟨-, ⟨hroom, -, hpush⟩ | ⟨hfull, hrefused⟩⟩
  · rw [hsame]
    exact h.room
  · rw [size, hpush, Array.size_push]
    exact hroom
  · rw [hrefused]
    exact h.room

theorem Extends.kept (h : p.Extends q) (hp : p.Kept) : q.Kept := by
  induction h with
  | refl => exact hp
  | add c _ ih => exact ih.add c

theorem Extends.later (h : p.Extends q) : p.Later q := by
  induction h with
  | refl => exact .refl p
  | add c _ ih => exact ih.trans (later_add _ c)

theorem Kept.wellFormed (h : p.Kept) : p.WellFormed := by
  refine ⟨h.room, fun k i hi => ?_⟩
  rw [h.index, indexIn, Option.map_eq_some_iff] at hi
  obtain ⟨n, hn, rfl⟩ := hi
  obtain ⟨hlt, hsame, -⟩ := List.findIdx?_eq_some_iff_getElem.1 hn
  rw [Array.length_toList] at hlt
  have hindex : (n + 1).toUInt16.toNat = n + 1 := toNat_index (Nat.lt_of_lt_of_le hlt h.room)
  have hpos : (n + 1).toUInt16 ≠ 0 := by
    intro hzero
    rw [hzero] at hindex
    cases hindex
  refine ⟨p.constants[n], ?_, by simpa using hsame⟩
  rw [Constants.get?, if_neg hpos, hindex]
  simp [hlt]

/-- An index that is given out is that of a constant, or 0. -/
theorem Kept.index_le (h : p.Kept) (c : Constant) : (p.add c).1.toNat ≤ (p.add c).2.size := by
  rcases h.toSound.add_cases h.room c with ⟨n, -, hlt, hindex, hsame⟩ | ⟨-, ⟨-, hindex, hpush⟩ | ⟨-, hrefused⟩⟩
  · rw [hindex, hsame]
    exact hlt
  · simp only [hindex, size, hpush, Array.size_push, Nat.le_refl]
  · rw [hrefused]
    exact Nat.zero_le _

/-- Only a full pool gives 0, and it remembers that it did. -/
theorem Kept.overflowed_of_zero (h : p.Kept) (hzero : (p.add c).1 = 0) :
    (p.add c).2.overflowed = true ∧ (p.add c).2.size = maxEntries := by
  rcases h.toSound.add_cases h.room c with ⟨n, -, -, hindex, -⟩ | ⟨-, ⟨-, hindex, -⟩ | ⟨hfull, hrefused⟩⟩
  · rw [hzero] at hindex
    cases hindex
  · rw [hzero] at hindex
    cases hindex
  · rw [hrefused]
    exact ⟨rfl, hfull⟩

/-- An addition of a constant that the pool has gives the index of the first that is equal to it, and adds nothing. -/
theorem Kept.add_of_firstSame (h : p.Kept) {n : Nat} (hn : FirstSame p.constants.toList c n) :
    (p.add c).1.toNat = n + 1 ∧ (p.add c).2 = p := by
  rcases h.toSound.add_cases h.room c with ⟨m, hm, -, hindex, hsame⟩ | ⟨hnone, -⟩
  · obtain rfl : m = n := Option.some.inj ((firstSame_iff.2 hm).symm.trans (firstSame_iff.2 hn))
    exact ⟨hindex, hsame⟩
  · obtain ⟨⟨k, hk, hsame⟩, -⟩ := hn
    exact absurd hsame (hnone k (List.mem_of_getElem? hk))

/-- No two constants are equal. -/
def Distinct (p : Pool) : Prop := p.constants.toList.Pairwise fun k c => ¬k.Same c

theorem Kept.distinct_add (h : p.Kept) (hp : p.Distinct) (c : Constant) : (p.add c).2.Distinct := by
  rcases h.toSound.add_cases h.room c with ⟨n, -, -, -, hsame⟩ | ⟨hnone, ⟨-, -, hpush⟩ | ⟨-, hrefused⟩⟩
  · rw [hsame]
    exact hp
  · rw [Distinct, hpush, Array.toList_push, List.pairwise_append]
    refine ⟨hp, List.pairwise_singleton _ _, fun k hk x hx => ?_⟩
    rw [List.mem_singleton.1 hx]
    exact hnone k hk
  · rw [hrefused]
    exact hp

theorem Extends.distinct (h : p.Extends q) (hp : p.Kept) (hdistinct : p.Distinct) : q.Distinct := by
  induction h with
  | refl => exact hdistinct
  | add c hextends ih => exact (hextends.kept hp).distinct_add ih c

/-- What an index up to the size stands for stays. -/
theorem Extends.get?_eq (h : p.Extends q) (hi : i.toNat ≤ p.size) : q.constants.get? i = p.constants.get? i := by
  by_cases hzero : i = 0
  · rw [Constants.get?, Constants.get?, if_pos hzero, if_pos hzero]
  · have hpos : i.toNat ≠ 0 := fun h0 => hzero (UInt16.toNat_inj.1 h0)
    have hlt : i.toNat - 1 < p.constants.size := by
      rw [size] at hi
      omega
    have hsome : p.constants.get? i = some p.constants[i.toNat - 1] := by
      rw [Constants.get?, if_neg hzero]
      exact Array.getElem?_eq_getElem hlt
    rw [hsome, h.get? hsome]

/-! ## Additions with all that they refer to -/

/-- What can be asked of a pool: to add a constant as it is, or an item with all that it refers to. -/
inductive Addition where
  | constant (c : Constant)
  | item (item : Item)

/-- Makes an addition and gives its index. -/
def make (p : Pool) : Addition → UInt16 × Pool
  | .constant c => p.add c
  | .item x => p.put x

/-- Makes additions one after the other. -/
def makeAll (p : Pool) (as : List Addition) : Pool := as.foldl (fun p a => (p.make a).2) p

/-- What an index stands for that was given out for an addition. -/
def Addition.Found (cs : Constants) (i : UInt16) : Addition → Prop
  | .constant c => ∃ k, cs.get? i = some k ∧ k.Same c
  | .item x => cs.Has i x

theorem extends_addMember (p : Pool) (m : MemberRef) : p.Extends (p.addMember m).2 := by
  rw [addMember_pool, addClass_eq]
  exact .add _ (.add _ (.add _ (.add _ .refl)))

/-- Every addition ends with that of a single constant, to which its index belongs. -/
theorem exists_add (p : Pool) (a : Addition) : ∃ q c, p.Extends q ∧ p.make a = q.add c := by
  cases a with
  | constant c => exact ⟨p, c, .refl, rfl⟩
  | item x =>
    cases x with
    | utf8 s => exact ⟨p, .utf8 s, .refl, rfl⟩
    | int n => exact ⟨p, .int n, .refl, rfl⟩
    | long n => exact ⟨p, .long n, .refl, rfl⟩
    | double d => exact ⟨p, .double d, .refl, rfl⟩
    | string s => exact ⟨_, _, extends_add p (.utf8 s), by rw [make, put, addString_eq]; rfl⟩
    | cls name => exact ⟨_, _, extends_add p (.utf8 name), by rw [make, put, addClass_eq]; rfl⟩
    | field ref => exact ⟨_, _, p.extends_addMember ref, by rw [make, put, addFieldRef_eq]⟩
    | method ref => exact ⟨_, _, p.extends_addMember ref, by rw [make, put, addMethodRef_eq]⟩

theorem extends_make (p : Pool) (a : Addition) : p.Extends (p.make a).2 := by
  obtain ⟨q, c, hq, heq⟩ := p.exists_add a
  rw [heq]
  exact hq.add c

theorem extends_makeAll (p : Pool) (as : List Addition) : p.Extends (p.makeAll as) := by
  induction as generalizing p with
  | nil => exact .refl
  | cons a as ih => exact (p.extends_make a).trans (ih _)

/-- In a later pool that did not overflow the index stands for what was added. -/
theorem found_of_make {a : Addition} (h : (p.make a).2.Extends q) (hq : q.Kept) (hover : q.overflowed = false) :
    a.Found q.constants (p.make a).1 := by
  have hwithin : (p.make a).2.Within q.constants := ⟨q, h.later, hq.wellFormed, hover, rfl⟩
  cases a with
  | constant c =>
    obtain ⟨k, hk, hsame⟩ := Within.get? hwithin
    exact ⟨k, hk, Constant.canonical_eq_iff.1 hsame⟩
  | item x => exact has_of_put x hwithin

/-! ## Pools to begin with -/

/-- The pools to which things are added: an empty one, or one of the constants of a class file. -/
inductive Start : Pool → Prop
  | empty : Start empty
  | ofConstants {cs : Constants} : cs.size ≤ maxEntries → Start (ofConstants cs)

theorem Start.kept (h : p.Start) : p.Kept := by
  have hcs : ∀ cs : Constants, cs.size ≤ maxEntries → (Pool.ofConstants cs).Kept := fun _ hsize =>
    ⟨sound_ofConstants (Nat.lt_of_le_of_lt hsize (by decide)), hsize⟩
  cases h with
  | empty => exact hcs #[] (Nat.zero_le _)
  | ofConstants hsize => exact hcs _ hsize

/-- Whatever was added before to a pool, and whatever is added later: the index of an addition, and every other one that is in
use, stands for the same ever after. It is 0 only if the pool is full and remembers that it refused something; there are never
more constants than a pool may hold. If the pool was empty at first, no two constants are equal; whatever it was, for a constant
that is there the first that is equal to it is found. As long as nothing was refused, what was added can be read back. -/
theorem Start.indices_kept {start : Pool} (h : start.Start) (before later : List Addition) (a : Addition) :
    let p := start.makeAll before
    let i := (p.make a).1
    let q := (p.make a).2
    let r := q.makeAll later
    (i.toNat ≤ q.size ∧ ∀ j : UInt16, j.toNat ≤ q.size → r.constants.get? j = q.constants.get? j) ∧
      (i = 0 → q.overflowed = true ∧ q.size = maxEntries) ∧ r.size ≤ maxEntries ∧
      (start = .empty → r.Distinct) ∧
      (∀ c n, FirstSame p.constants.toList c n → (p.add c).1.toNat = n + 1 ∧ (p.add c).2 = p) ∧
      (r.overflowed = false → a.Found r.constants i) := by
  intro p i q r
  have hp : start.Extends p := start.extends_makeAll before
  have hr : q.Extends r := q.extends_makeAll later
  have hq : start.Extends q := hp.trans (p.extends_make a)
  have hkept : r.Kept := (hq.trans hr).kept h.kept
  obtain ⟨p', c, hp', heq⟩ := p.exists_add a
  have hkept' : p'.Kept := (hp.trans hp').kept h.kept
  have hi : i = (p'.add c).1 := congrArg Prod.fst heq
  have hq' : q = (p'.add c).2 := congrArg Prod.snd heq
  refine ⟨⟨?_, fun j hj => hr.get?_eq hj⟩, fun hzero => ?_, hkept.room, ?_, fun c n hn => ?_, fun hover => ?_⟩
  · rw [hi, hq']
    exact hkept'.index_le c
  · rw [hq']
    exact hkept'.overflowed_of_zero (hi ▸ hzero)
  · rintro rfl
    exact (hq.trans hr).distinct h.kept List.Pairwise.nil
  · exact (hp.kept h.kept).add_of_firstSame hn
  · exact found_of_make hr hkept hover

/-- The same text twice, and a class whose name is nowhere. -/
def repeated : Constants := #[.utf8 "x", .utf8 "x", .cls 9]

/-- A class is added by the first of two equal texts, and its name is read back. -/
theorem Start.indices_kept_repeated :
    (Pool.ofConstants repeated).Start ∧ FirstSame repeated.toList (.utf8 "x") 0 ∧
      ((Pool.ofConstants repeated).addUtf8 "x").1.toNat = 1 ∧
      ((Pool.ofConstants repeated).addClass "x").2.constants.className? ((Pool.ofConstants repeated).addClass "x").1 = some "x" := by
  have hstart : (Pool.ofConstants repeated).Start := .ofConstants (by decide)
  have hfirst : FirstSame repeated.toList (.utf8 "x") 0 := ⟨⟨_, rfl, rfl⟩, fun m hm => absurd hm (Nat.not_lt_zero m)⟩
  obtain ⟨-, -, -, -, hadd, hfound⟩ := hstart.indices_kept [] [] (.item (.cls "x"))
  obtain ⟨hindex, hsame⟩ := hadd _ 0 hfirst
  refine ⟨hstart, hfirst, hindex, hfound ?_⟩
  change ((Pool.ofConstants repeated).addClass "x").2.overflowed = false
  rw [addClass_eq, show ((Pool.ofConstants repeated).addUtf8 "x").2 = Pool.ofConstants repeated from hsame]
  exact overflowed_add_of_room rfl (by decide)

end Pool

end ClassTree
