import Mathlib.Data.List.Induction
import ClassTree.Code.Emitter
import ClassTree.Proofs.Machine.Steps
import ClassTree.Proofs.Pool.Doubles

/-!
# Constants of literals

`Pool.Sound`: a pool knows of each constant the index of the first one that is equal to it. So is every pool that is made of the
constants of a class file and then added to (`Pool.Made.sound`), and what an index stands for stays when more is added
(`Pool.Extends.get?`). So the instruction that is emitted for a literal pushes the literal (`Emitter.literal_pushed`), except that
a double is the one that the pool has for it, and that may be a NaN with other bits or a zero with the other sign
(`Double.eq_of_canonical`).
-/

namespace ClassTree

/-! ## Doubles that are equal as constants -/

namespace Double

theorem eq_zero_of_read {d : Double} {s : Bool} {q : Int} (h : d.read = .finite s 0 q) : ∃ t, d = .zero t := by
  have hlt : d.bits.toNat < 2 ^ 64 := d.bits.toNat_lt
  have hbits : d.bits.toNat / fractions % 2048 = 0 ∧ d.bits.toNat % fractions = 0 := by
    unfold read at h
    dsimp only at h
    by_cases hmax : d.bits.toNat / fractions % 2048 = 2047
    · rw [if_pos hmax] at h
      split at h <;> cases h
    · rw [if_neg hmax] at h
      by_cases hmin : d.bits.toNat / fractions % 2048 = 0
      · rw [if_pos hmin] at h
        exact ⟨hmin, (Reading.finite.inj h).2.1⟩
      · rw [if_neg hmin] at h
        have hsum := (Reading.finite.inj h).2.1
        unfold fractions at hsum
        omega
  have hzero : d.bits.toNat = 0 ∨ d.bits.toNat = 2 ^ 63 := by
    unfold fractions at hbits
    omega
  obtain ⟨bits⟩ := d
  rcases hzero with h | h
  · exact ⟨false, congrArg Double.mk (UInt64.toNat_inj.1 h)⟩
  · exact ⟨true, congrArg Double.mk (UInt64.toNat_inj.1 h)⟩

/-- Which double stands for those that are equal to it as constants. -/
theorem canonical_cases (d : Double) :
    d.isNaN = true ∧ d.canonical = ⟨0x7ff8000000000000⟩ ∨ (∃ s, d = .zero s) ∧ d.canonical = .zero false ∨
      d.isNaN = false ∧ d.canonical = d := by
  unfold canonical
  split
  · rename_i h
    exact .inl ⟨decide_eq_true h, rfl⟩
  · rename_i h
    exact .inr (.inl ⟨eq_zero_of_read h, rfl⟩)
  · rename_i h _
    exact .inr (.inr ⟨decide_eq_false h, rfl⟩)

/-- Doubles that are equal as constants are the same, or both are no numbers, or they are the two zeros. -/
theorem eq_of_canonical {d d' : Double} (h : d'.canonical = d.canonical) :
    d' = d ∨ d.isNaN = true ∧ d'.isNaN = true ∨ ∃ s, d = .zero s ∧ d' = .zero !s := by
  have hzero : (zero false).isNaN = false := by decide
  have hnan : isNaN ⟨0x7ff8000000000000⟩ = true := by decide
  have hne : (⟨0x7ff8000000000000⟩ : Double) ≠ .zero false := by decide
  rcases d.canonical_cases with ⟨hd, hc⟩ | ⟨⟨s, rfl⟩, hc⟩ | ⟨hd, hc⟩ <;>
    rcases d'.canonical_cases with ⟨hd', hc'⟩ | ⟨⟨s', rfl⟩, hc'⟩ | ⟨hd', hc'⟩ <;> rw [hc, hc'] at h
  · exact .inr (.inl ⟨hd, hd'⟩)
  · exact absurd h.symm hne
  · rw [h, hnan] at hd'
    cases hd'
  · exact absurd h hne
  · by_cases hs : s' = s
    · exact .inl (by rw [hs])
    · exact .inr (.inr ⟨s, rfl, by rw [Bool.eq_not.2 hs]⟩)
  · subst h
    cases s with
    | false => exact .inl rfl
    | true => exact .inr (.inr ⟨true, rfl, rfl⟩)
  · rw [← h, hnan] at hd
    cases hd
  · subst h
    cases s' with
    | false => exact .inl rfl
    | true => exact .inr (.inr ⟨false, rfl, rfl⟩)
  · exact .inl h

end Double

/-! ## Pools -/

namespace Pool

variable {p q : Pool} {c : Constant} {i : UInt16}

/-- The second pool comes from the first by additions. -/
inductive Extends (p : Pool) : Pool → Prop
  | refl : Extends p p
  | add {q : Pool} (c : Constant) : Extends p q → Extends p (q.add c).2

/-- The pool is made of constants that all have indices, and then added to. -/
def Made (p : Pool) : Prop := ∃ cs : Constants, cs.size < 65536 ∧ (ofConstants cs).Extends p

/-- The index by which the first constant equal to `k` is known. -/
def indexIn (cs : List Constant) (k : Constant) : Option UInt16 :=
  (cs.findIdx? (·.canonical = k)).map fun n => (n + 1).toUInt16

/-- The pool knows of each constant the first one that is equal to it. -/
structure Sound (p : Pool) : Prop where
  size : p.size < 65536
  index : ∀ k, p.index[k]? = indexIn p.constants.toList k

theorem indexIn_append (cs : List Constant) (c k : Constant) :
    indexIn (cs ++ [c]) k = (indexIn cs k).or (if c.canonical = k then some (cs.length + 1).toUInt16 else none) := by
  unfold indexIn
  rw [List.findIdx?_append]
  cases cs.findIdx? (·.canonical = k) with
  | some n => rfl
  | none => by_cases hc : c.canonical = k <;> simp [hc]

theorem sound_ofConstants {cs : Constants} (h : cs.size < 65536) : (ofConstants cs).Sound := by
  refine ⟨h, ?_⟩
  -- The invariant of the fold: the constants so far have their indices, and the next index is one more than there are.
  have hfold : ∀ l : List Constant, ∃ ix : Std.HashMap Constant UInt16,
      l.foldl (fun p c => (p.1.insertIfNew c.canonical p.2, p.2 + 1)) (∅, (1 : UInt16)) = (ix, (l.length + 1).toUInt16) ∧
        ∀ k, ix[k]? = indexIn l k := by
    intro l
    induction l using List.reverseRecOn with
    | nil => exact ⟨∅, rfl, fun k => by simp [indexIn]⟩
    | append_singleton l c ih =>
      obtain ⟨ix, hix, hindex⟩ := ih
      refine ⟨ix.insertIfNew c.canonical (l.length + 1).toUInt16, ?_, fun k => ?_⟩
      · rw [List.foldl_append, hix, List.length_append]
        exact congrArg _ (UInt16.ofNat_add (l.length + 1) 1).symm
      · rw [Std.HashMap.getElem?_insertIfNew, indexIn_append, ← hindex]
        by_cases hk : c.canonical = k
        · subst hk
          simp only [beq_self_eq_true, true_and, if_true, Std.HashMap.mem_iff_isSome_getElem?]
          cases ix[c.canonical]? <;> rfl
        · simp [hk]
  obtain ⟨ix, hix, hindex⟩ := hfold cs.toList
  intro k
  rw [ofConstants, ← Array.foldl_toList]
  exact (congrArg (·.1[k]?) hix).trans (hindex k)

theorem Sound.add (h : p.Sound) (c : Constant) : (p.add c).2.Sound := by
  unfold Pool.add
  split
  · exact h
  · rename_i hnew
    dsimp only
    split
    · rename_i hroom
      refine ⟨?_, fun k => ?_⟩
      · simp only [Pool.size, Array.size_push, maxEntries] at hroom ⊢
        omega
      · rw [Std.HashMap.getElem?_insert, Array.toList_push, indexIn_append, ← h.index, Array.length_toList]
        by_cases hk : c.canonical = k
        · subst hk
          simp [hnew, Pool.size]
        · simp [hk]
    · exact ⟨h.size, h.index⟩

theorem Extends.sound (h : p.Extends q) (hp : p.Sound) : q.Sound := by
  induction h with
  | refl => exact hp
  | add c _ ih => exact ih.add c

theorem Made.sound (h : p.Made) : p.Sound := by
  obtain ⟨cs, hsize, hextends⟩ := h
  exact hextends.sound (sound_ofConstants hsize)

/-- What an index stands for stays when more is added. -/
theorem Extends.get? (h : p.Extends q) (hi : p.constants.get? i = some c) : q.constants.get? i = some c := by
  induction h with
  | refl => exact hi
  | add c _ ih =>
    unfold Pool.add
    split
    · exact ih
    · dsimp only
      split
      · exact get?_push ih
      · exact ih

theorem Extends.trans {r : Pool} (h : p.Extends q) (h' : q.Extends r) : p.Extends r := by
  induction h' with
  | refl => exact h
  | add c _ ih => exact .add c ih

/-- A pool that has room does not overflow. -/
theorem overflowed_add_of_room (h : p.overflowed = false) (hroom : p.size < maxEntries) : (p.add c).2.overflowed = false := by
  unfold Pool.add
  split
  · exact h
  · rw [if_pos hroom]
    exact h

theorem extends_add (p : Pool) (c : Constant) : p.Extends (p.add c).2 := .add c .refl

/-- The constant that stands for one in a pool: the first that is equal to it, or itself if there is none. -/
def standsFor (p : Pool) (c : Constant) : Constant :=
  (p.constants.toList.find? (·.canonical = c.canonical)).getD c

theorem Sound.get?_add (h : p.Sound) (hover : (p.add c).2.overflowed = false) :
    (p.add c).2.constants.get? (p.add c).1 = some (p.standsFor c) := by
  have hindex := h.index c.canonical
  unfold indexIn at hindex
  cases hn : p.constants.toList.findIdx? (·.canonical = c.canonical) with
  | none =>
    rw [hn] at hindex
    have hnone : p.constants.toList.find? (·.canonical = c.canonical) = none := by
      rw [List.find?_eq_none]
      exact fun x hx => by simpa using List.findIdx?_eq_none_iff.1 hn x hx
    simp only [Pool.add, hindex, Option.map_none] at hover ⊢
    split
    · rename_i hroom
      rw [standsFor, hnone]
      exact get?_push_last hroom
    · rename_i hfull
      rw [if_neg hfull] at hover
      cases hover
  | some n =>
    rw [hn] at hindex
    obtain ⟨hlt, hn, hfirst⟩ := List.findIdx?_eq_some_iff_getElem.1 hn
    have hsome : p.constants.toList.find? (·.canonical = c.canonical) = some p.constants.toList[n] :=
      List.find?_eq_some_iff_getElem.2 ⟨hn, n, hlt, rfl, fun j hj => by simpa using hfirst j hj⟩
    have hsize := h.size
    rw [Array.length_toList] at hlt
    have hlast : (n + 1).toUInt16.toNat = n + 1 :=
      UInt16.toNat_ofNat_of_lt' (by simp only [Pool.size] at hsize; change _ < 65536; omega)
    have hpos : (n + 1).toUInt16 ≠ 0 := by
      intro h0
      rw [h0] at hlast
      cases hlast
    simp only [Pool.add, hindex, Option.map_some]
    rw [standsFor, hsome, Constants.get?, if_neg hpos, hlast]
    simp [hlt]

/-- Of all constants only doubles are equal to others. -/
theorem standsFor_of_ne (hc : ∀ d, c ≠ .double d) : p.standsFor c = c := by
  have hcanonical : c.canonical = c := by
    cases c with
    | double d => exact absurd rfl (hc d)
    | _ => rfl
  unfold standsFor
  cases hfind : p.constants.toList.find? (·.canonical = c.canonical) with
  | none => rfl
  | some k =>
    have hk : k.canonical = c := by simpa [hcanonical] using List.find?_some hfind
    exact eq_of_canonical hc hk

/-- For a double stands the first of the doubles that are equal to it. -/
theorem standsFor_double (p : Pool) (d : Double) : p.standsFor (.double d) = .double (heldFor p.constants.doubles d) := by
  have hfind : ∀ cs : Constants, cs.toList.find? (·.canonical = (Constant.double d).canonical) =
      (cs.doubles.find? (·.canonical = d.canonical)).map .double := by
    rintro ⟨cs⟩
    induction cs with
    | nil => rfl
    | cons k cs ih =>
      cases k with
      | double x =>
        change List.find? _ (.double x :: cs) = Option.map _ (List.find? _ (x :: Constants.doubles ⟨cs⟩))
        by_cases hx : x.canonical = d.canonical
        · rw [List.find?_cons_of_pos (by simp [Constant.canonical, hx]), List.find?_cons_of_pos (by simpa using hx)]
          rfl
        · rw [List.find?_cons_of_neg (by simp [Constant.canonical, hx]), List.find?_cons_of_neg (by simpa using hx)]
          exact ih
      | _ => exact (List.find?_cons_of_neg (by simp [Constant.canonical])).trans ih
  rw [standsFor, hfind, heldFor]
  cases List.find? _ _ <;> rfl

/-- The double that stands for another is the same one, unless it is no number either or the zero of the other sign. -/
theorem heldFor_cases (p : Pool) (d : Double) : heldFor p.constants.doubles d = d ∨
    d.isNaN = true ∧ (heldFor p.constants.doubles d).isNaN = true ∨
      ∃ s, d = .zero s ∧ heldFor p.constants.doubles d = .zero !s := by
  unfold heldFor
  cases hfind : p.constants.doubles.find? (·.canonical = d.canonical) with
  | none => exact .inl rfl
  | some d' => exact Double.eq_of_canonical (by simpa using List.find?_some hfind)

end Pool

/-! ## Instructions -/

namespace Pool

variable {p q : Pool} {i : Instr}

/-- The instruction that pushes a literal; a string may be too long for one. -/
def push? (p : Pool) : Literal → Option (Instr × Pool)
  | .null => some (.push .null, p)
  | .bool b => some (.push (if b then .true else .false), p)
  | .int n => some (p.pushInt n)
  | .long n => some (p.pushLong n)
  | .double d => some (p.pushDouble d)
  | .str s => p.pushString? s

/-- The value of a literal whose constant is taken from a pool. -/
def valueOf (p : Pool) : Literal → Value
  | .double d => .double (heldFor p.constants.doubles d)
  | l => .ofLiteral l

theorem instr_eq_some {f : UInt16 → Instr} {x : UInt16 × Pool} (h : some (instr f x) = some (i, q)) : i = f x.1 ∧ q = x.2 := by
  obtain ⟨index, p⟩ := x
  cases h
  exact ⟨rfl, rfl⟩

theorem exec_ldc {f : Frame} {k : UInt16} {v : Value} (h : f.constant k = .ok v) (render : Value → Run String) :
    f.exec render (.ldc k) = pure (.next (f.push v)) := by
  rw [Frame.exec, h]
  rfl

/-- The instruction that pushes a literal does so wherever the constants of a later pool are at hand. -/
theorem exec_push {l : Literal} (hp : p.Sound) (hpush : p.push? l = some (i, q)) (hover : q.overflowed = false) {r : Pool}
    (hr : q.Extends r) {f : Frame} (hf : f.constants = r.constants) (render : Value → Run String) :
    f.exec render i = pure (.next (f.push (p.valueOf l))) := by
  have hget : ∀ {p' : Pool} {c : Constant}, p'.Sound → q = (p'.add c).2 →
      f.constants.get? (p'.add c).1 = some (p'.standsFor c) := by
    rintro p' c hp' rfl
    rw [hf]
    exact hr.get? (hp'.get?_add hover)
  cases l with
  | null => cases hpush; rfl
  | bool b => cases hpush; cases b <;> rfl
  | int n =>
    rw [push?, pushInt] at hpush
    split at hpush
    · rename_i hn
      cases hpush
      rw [hn]
      rfl
    · split at hpush
      · rename_i hn
        cases hpush
        rw [hn]
        rfl
      · obtain ⟨rfl, hq⟩ := instr_eq_some hpush
        refine exec_ldc ?_ render
        rw [Frame.constant, hget hp hq, standsFor_of_ne (by simp)]
        rfl
  | long n =>
    obtain ⟨rfl, hq⟩ := instr_eq_some hpush
    refine exec_ldc ?_ render
    rw [Frame.constant, hget hp hq, standsFor_of_ne (by simp)]
    rfl
  | double d =>
    obtain ⟨rfl, hq⟩ := instr_eq_some hpush
    refine exec_ldc ?_ render
    rw [Frame.constant, hget hp hq, standsFor_double]
    rfl
  | str s =>
    rw [push?, pushString?] at hpush
    split at hpush
    · obtain ⟨rfl, hq⟩ := instr_eq_some hpush
      rw [addString_eq] at hq ⊢
      have hover' : (p.addUtf8 s).2.overflowed = false := (later_add (p.addUtf8 s).2 _).overflowed (hq ▸ hover)
      have htext : f.constants.get? (p.addUtf8 s).1 = some (.utf8 s) := by
        rw [hf]
        refine ((extends_add (p.addUtf8 s).2 _).trans (hq ▸ hr)).get? ?_
        rw [addUtf8, hp.get?_add hover', standsFor_of_ne (by simp)]
      have hp' : (p.addUtf8 s).2.Sound := hp.add (.utf8 s)
      have hstring := hget hp' hq
      rw [standsFor_of_ne (by simp)] at hstring
      refine exec_ldc ?_ render
      have hfound : f.constants.string? ((p.addUtf8 s).2.add (.string (p.addUtf8 s).1)).1 = some s := by
        rw [Constants.string?, hstring]
        dsimp only
        rw [Constants.utf8?, htext]
      rw [Frame.constant, hstring]
      dsimp only
      rw [hfound]
      rfl
    · cases hpush

end Pool

/-! ## Emitted literals -/

namespace Emitter

/-- Emits the instruction that pushes a literal; a string may be too long for one. -/
def literal? (e : Emitter) : Literal → Option Emitter
  | .null => some e.null
  | .bool b => some (e.bool b)
  | .int n => some (e.int n)
  | .long n => some (e.long n)
  | .double d => some (e.double d)
  | .str s => e.string? s

/-- The bytes that one emitter has behind those of another. -/
def since (e' e : Emitter) : List UInt8 := e'.buffer.code.toList.drop e.offset

variable {e e' : Emitter} {l : Literal}

theorem literal?_eq (e : Emitter) (l : Literal) :
    e.literal? l = (e.pool.push? l).map fun (i, pool) => { e with pool }.emit i := by
  cases l <;> rfl

theorem since_emit (e : Emitter) (pool : Pool) (i : Instr) : ({ e with pool }.emit i).since e = i.encode := by
  have hwrite : ∀ (bytes : List UInt8) (b : Buffer),
      (bytes.foldl Buffer.writeByte b).code.toList = b.code.toList ++ bytes := by
    intro bytes
    induction bytes with
    | nil => intro b; simp
    | cons x bytes ih =>
      intro b
      rw [List.foldl_cons, ih]
      simp [Buffer.writeByte]
  rw [since, emit]
  dsimp only
  rw [hwrite]
  exact List.drop_left' Array.length_toList

/-- Literals other than too long strings are emitted. -/
theorem exists_literal? (hl : ∀ s, l = .str s → s.utf8ByteSize ≤ Pool.maxTextBytes) : ∃ e', e.literal? l = some e' := by
  cases l with
  | str s =>
    have hs : Pool.textFits s = true := decide_eq_true (hl s rfl)
    exact ⟨_, by rw [literal?, string?, Pool.pushString?, if_pos hs, Option.map_some]⟩
  | _ => exact ⟨_, rfl⟩

/-- What is emitted for a literal pushes the literal, whatever was added to the pool before and is added later, if the pool
does not overflow meanwhile; only for a double it is the first of the doubles in the pool that are equal to it. That is the same
double, unless it is no number either or the zero of the other sign. -/
theorem literal_pushed (hmade : e.pool.Made) (hl : ∀ s, l = .str s → s.utf8ByteSize ≤ Pool.maxTextBytes) :
    ∃ e', e.literal? l = some e' ∧
      (e'.pool.overflowed = false → ∀ q, e'.pool.Extends q → ∀ (f : Frame) before after, f.constants = q.constants →
        f.code.toList = before ++ e'.since e ++ after → f.ip = before.length → ∀ render,
          f.step render =
            pure (.next { f with ip := f.ip + (e'.since e).length, stack := e.pool.valueOf l :: f.stack })) ∧
      ((∀ d, l ≠ .double d) → e.pool.valueOf l = .ofLiteral l) ∧
      ∀ d, l = .double d → ∃ d', e.pool.valueOf l = .double d' ∧
        (d' = d ∨ d.isNaN = true ∧ d'.isNaN = true ∨ ∃ s, d = .zero s ∧ d' = .zero !s) := by
  obtain ⟨e', he'⟩ := exists_literal? (e := e) hl
  refine ⟨e', he', ?_, ?_, ?_⟩
  · intro hover q hq f before after hconstants hcode hip render
    rw [literal?_eq] at he'
    obtain ⟨⟨i, pool⟩, hpush, rfl⟩ := Option.map_eq_some_iff.1 he'
    rw [since_emit] at hcode ⊢
    have hat : (Block.one i).At f.code f.ip :=
      ⟨before, after, by rw [hcode]; simp [Block.one, encodeCode], hip.symm⟩
    rw [Frame.step_eq hat.one, Pool.exec_push hmade.sound hpush hover hq (by exact hconstants), Instr.length_encode]
    rfl
  · intro hl'
    cases l with
    | double d => exact absurd rfl (hl' d)
    | _ => rfl
  · rintro d rfl
    exact ⟨_, rfl, e.pool.heldFor_cases d⟩

/-- A pool that has `0.0`. -/
def zeroPool : Pool := (Pool.empty.add (.double (.zero false))).2

/-- A call of a method with the given code and constants. -/
def frameOf (code : Array UInt8) (constants : Constants) : Frame where
  target := {
    cls := {
      name := .object, access := .pub, superclass := none, enclosing := none, nested := [], fields := [], layout := [],
      methods := [], constants, host := none }
    method := ⟨"run", "()D", [], .double, .pub, .abstract⟩ }
  code
  locals := #[]

/-- After `0.0`, what is emitted for `-0.0` pushes `0.0`. -/
theorem literal_pushed_zero : ∃ e', (ofPool zeroPool).literal? (.double (.zero true)) = some e' ∧
    ∀ render, (frameOf e'.buffer.code e'.pool.constants).step render =
      pure (.next { frameOf e'.buffer.code e'.pool.constants with
        ip := (e'.since (ofPool zeroPool)).length, stack := [.double (.zero false)] }) := by
  have hempty : zeroPool.overflowed = false := Pool.overflowed_add_of_room rfl (by decide)
  have hdoubles : zeroPool.constants.doubles = [.zero false] := Pool.indexed_empty.doubles_add hempty
  have hsize : zeroPool.size < Pool.maxEntries := by
    simp [zeroPool, Pool.add, Pool.size, Pool.empty, Pool.maxEntries]
  obtain ⟨e', he', hstep, -⟩ :=
    literal_pushed (e := ofPool zeroPool) (l := .double (.zero true)) ⟨#[], by decide, .add _ .refl⟩ (by rintro _ ⟨⟩)
  have hover : e'.pool.overflowed = false := by
    cases he'
    exact Pool.overflowed_add_of_room hempty hsize
  refine ⟨e', he', fun render => ?_⟩
  have h := hstep hover _ .refl (frameOf e'.buffer.code e'.pool.constants) [] [] rfl
    (by simp [since, frameOf, ofPool, offset, Buffer.size, Buffer.empty]) rfl render
  have hvalue : zeroPool.valueOf (.double (.zero true)) = .double (.zero false) := by
    rw [Pool.valueOf, hdoubles]
    rfl
  rw [h, show (ofPool zeroPool).pool = zeroPool from rfl, hvalue]
  simp [frameOf]

end Emitter

end ClassTree
