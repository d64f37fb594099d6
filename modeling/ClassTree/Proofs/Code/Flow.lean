import ClassTree.Proofs.Code.Decoded

/-!
# Blocks that keep to a discipline

A `Discipline` follows code with states, such as depths of the stack or types of what is on it: it says which state an
instruction leaves, and when a state entails another. `Block.Flows J b s t`: wherever the block `b` stands, no jump leaves
it, and states can be given to its instructions so that it begins with `s` and ends with `t`, where `none` means a place
that is not reached. There is one rule for each way in which blocks are put together.
-/

namespace ClassTree

/-! ## Where instructions lead -/

/-- Where an instruction at an offset may jump. -/
def Instr.target? (i : Instr) (o : Nat) : Option Nat :=
  match i with
  | .jump w | .jumpIfFalse w => some (o + i.size + w.toNat)
  | .loop w => some (o + i.size - w.toNat)
  | _ => none

/-- Where control can go from an instruction at an offset. -/
def Instr.leads (i : Instr) (o : Nat) : List Nat :=
  (i.target? o).toList ++ if i.opcode.isTerminator then [] else [o + i.size]

/-- A jump back does not lead before the start of the code. -/
def Instr.Within (i : Instr) (o : Nat) : Prop := ∀ w, i = .loop w → w.toNat ≤ o + i.size

namespace Instr

theorem stands_append {xs ys : List Instr} {o : Nat} {i : Instr} :
    Stands (xs ++ ys) o i ↔ Stands xs o i ∨ ∃ o', o = (xs.flatMap encode).length + o' ∧ Stands ys o' i := by
  induction xs generalizing o with
  | nil => simp [Stands]
  | cons x xs ih =>
    rw [List.cons_append, stands_cons, stands_cons]
    constructor
    · rintro (h | ⟨o', rfl, h⟩)
      · exact .inl (.inl h)
      · rcases ih.1 h with hx | ⟨o'', rfl, hy⟩
        · exact .inl (.inr ⟨o', rfl, hx⟩)
        · refine .inr ⟨o'', ?_, hy⟩
          rw [List.flatMap_cons, List.length_append, length_encode, Nat.add_assoc]
    · rintro ((h | ⟨o', rfl, h⟩) | ⟨o', rfl, h⟩)
      · exact .inl h
      · exact .inr ⟨o', rfl, ih.2 (.inl h)⟩
      · refine .inr ⟨_, ?_, ih.2 (.inr ⟨o', rfl, h⟩)⟩
        rw [List.flatMap_cons, List.length_append, length_encode, Nat.add_assoc]

end Instr

namespace Block

/-- An instruction of the block stands behind so many bytes of it. -/
def Stands (b : Block) (o : Nat) (i : Instr) : Prop := Instr.Stands b.instrs.toList o i

/-- An instruction begins behind so many bytes of the block, or the block ends there. -/
def Boundary (b : Block) (o : Nat) : Prop := o = b.size ∨ ∃ i, b.Stands o i

variable {a b c : Block} {o : Nat} {i : Instr}

theorem stands_append : (a ++ b).Stands o i ↔ a.Stands o i ∨ ∃ o', o = a.size + o' ∧ b.Stands o' i := by
  have hlist : (a ++ b).instrs.toList = a.instrs.toList ++ b.instrs.toList := Array.toList_append
  rw [Stands, hlist, Instr.stands_append, size, codeSize_eq]
  rfl

theorem stands_one {j : Instr} : (one j).Stands o i ↔ o = 0 ∧ i = j := by
  rw [Stands, show (one j).instrs.toList = [j] from rfl, Instr.stands_cons]
  simp [Instr.Stands]

theorem not_stands_empty : ¬ empty.Stands o i := by
  rintro ⟨before, after, heq, -⟩
  simp [empty] at heq

theorem Stands.lt_size (h : b.Stands o i) : o + i.size ≤ b.size := by
  obtain ⟨before, after, heq, rfl⟩ := h
  rw [size, codeSize_eq, encodeCode, heq]
  simp only [List.flatMap_append, List.flatMap_cons, List.length_append, Instr.length_encode]
  omega

theorem Boundary.le (h : b.Boundary o) : o ≤ b.size := by
  rcases h with rfl | ⟨i, h⟩
  · exact Nat.le_refl _
  · have := h.lt_size
    omega

theorem boundary_zero (b : Block) : b.Boundary 0 := by
  cases h : b.instrs.toList with
  | nil =>
    refine .inl ?_
    rw [size, codeSize_eq, encodeCode, h]
    rfl
  | cons i is =>
    refine .inr ⟨i, ?_⟩
    rw [Stands, h]
    exact Instr.stands_cons.2 (.inl ⟨rfl, rfl⟩)

theorem boundary_size (b : Block) : b.Boundary b.size := .inl rfl

theorem Boundary.append_right (h : a.Boundary o) (b : Block) : (a ++ b).Boundary o := by
  rcases h with rfl | ⟨i, h⟩
  · rcases b.boundary_zero with h0 | ⟨i, h⟩
    · refine .inl ?_
      rw [size_append, ← h0, Nat.add_zero]
    · exact .inr ⟨i, stands_append.2 (.inr ⟨0, rfl, h⟩)⟩
  · exact .inr ⟨i, stands_append.2 (.inl h)⟩

theorem Boundary.append_left (h : b.Boundary o) (a : Block) : (a ++ b).Boundary (a.size + o) := by
  rcases h with rfl | ⟨i, h⟩
  · exact .inl (size_append a b).symm
  · exact .inr ⟨i, stands_append.2 (.inr ⟨o, rfl, h⟩)⟩

end Block

/-! ## States -/

/-- A way to follow code with states. -/
structure Discipline (σ : Type) where
  /-- The instruction may stand in code, reached or not. -/
  admits : Instr → Prop
  /-- The instruction can be done in the first state and leaves the second. -/
  step : Instr → σ → σ → Prop
  /-- What is in the first state is also in the second. -/
  entails : σ → σ → Prop
  refl : ∀ s, entails s s
  trans : ∀ {s t u}, entails s t → entails t u → entails s u

namespace Discipline

variable {σ : Type} {J : Discipline σ} {s t u : Option σ}

/-- The same between places, of which one may not be reached. -/
def Sub (J : Discipline σ) : Option σ → Option σ → Prop
  | none, _ => True
  | some s, some t => J.entails s t
  | some _, none => False

theorem sub_refl (s : Option σ) : J.Sub s s := by
  cases s with
  | none => trivial
  | some s => exact J.refl s

theorem Sub.trans (h : J.Sub s t) (h' : J.Sub t u) : J.Sub s u := by
  cases s with
  | none => trivial
  | some s =>
    cases t with
    | none => exact h.elim
    | some t =>
      cases u with
      | none => exact h'.elim
      | some u => exact J.trans h h'

/-- States fit an instruction at an offset: it can be done there, and all to which it leads can be entered with what it
leaves. -/
def FitsAt (J : Discipline σ) (D : Nat → Option σ) (o : Nat) (i : Instr) : Prop :=
  ∀ s, D o = some s → ∃ s', J.step i s s' ∧ ∀ x ∈ i.leads o, J.Sub (some s') (D x)

end Discipline

namespace Block

variable {σ : Type} {J : Discipline σ} {a b c : Block} {i : Instr}

/-! ## Parts of code -/

/-- A block that stands at an offset of code: its instructions are admitted, its jumps lead to places with `W`, and the
states `D` fit. -/
def FitsIn (J : Discipline σ) (W : Nat → Prop) (D : Nat → Option σ) (b : Block) (base : Nat) : Prop :=
  ∀ o i, b.Stands o i → J.admits i ∧ i.Within (base + o) ∧ (∀ t, i.target? (base + o) = some t → W t) ∧
    J.FitsAt D (base + o) i

variable {W W' : Nat → Prop} {D D' : Nat → Option σ} {base : Nat}

theorem fitsIn_empty : empty.FitsIn J W D base := fun _ _ h => absurd h not_stands_empty

theorem FitsIn.append (ha : a.FitsIn J W D base) (hb : b.FitsIn J W D (base + a.size)) : (a ++ b).FitsIn J W D base := by
  intro o i h
  rcases stands_append.1 h with hl | ⟨o, rfl, hr⟩
  · exact ha o i hl
  · rw [← Nat.add_assoc]
    exact hb o i hr

theorem FitsIn.append_at {p : Nat} (ha : a.FitsIn J W D base) (hp : base + a.size = p) (hb : b.FitsIn J W D p) :
    (a ++ b).FitsIn J W D base := ha.append (hp ▸ hb)

/-- A block stands in larger code in the same way, if the states there are the same up to its end. -/
theorem FitsIn.mono (h : b.FitsIn J (fun x => ∃ y, x = base + y ∧ b.Boundary y) D base)
    (hW : ∀ y, b.Boundary y → W (base + y)) (hD : ∀ y, y < b.size → D' (base + y) = D (base + y))
    (hend : J.Sub (D (base + b.size)) (D' (base + b.size))) : b.FitsIn J W D' base := by
  intro o i hi
  obtain ⟨hadmits, hwithin, htargets, hfits⟩ := h o i hi
  have hlt := hi.lt_size
  have hpos := i.size_pos
  refine ⟨hadmits, hwithin, fun t ht => ?_, fun s hs => ?_⟩
  · obtain ⟨y, rfl, hy⟩ := htargets t ht
    exact hW y hy
  · rw [hD o (by omega)] at hs
    obtain ⟨s', hstep, hleads⟩ := hfits s hs
    refine ⟨s', hstep, fun x hx => ?_⟩
    have hsub := hleads x hx
    -- An instruction leads to a place of the block, where the state is the same, or to its end.
    obtain ⟨y, rfl, hy⟩ : ∃ y, x = base + y ∧ y ≤ b.size := by
      rcases List.mem_append.1 hx with hx | hx
      · obtain ⟨y, rfl, hy⟩ := htargets x (by simpa using hx)
        exact ⟨y, rfl, hy.le⟩
      · split at hx
        · cases hx
        · exact ⟨o + i.size, by rw [List.mem_singleton.1 hx, Nat.add_assoc], hlt⟩
    rcases Nat.lt_or_eq_of_le hy with hy | rfl
    · rw [hD y hy]
      exact hsub
    · exact hsub.trans hend

/-- The rule for an instruction in its place. -/
theorem fitsIn_one {s s' : σ} (hadmits : J.admits i) (hwithin : i.Within base)
    (htargets : ∀ t, i.target? base = some t → W t) (hbase : D base = some s) (hstep : J.step i s s')
    (hleads : ∀ x ∈ i.leads base, J.Sub (some s') (D x)) : (one i).FitsIn J W D base := by
  intro o j hj
  obtain ⟨rfl, rfl⟩ := stands_one.1 hj
  refine ⟨hadmits, hwithin, htargets, fun s₁ hs₁ => ?_⟩
  rw [Nat.add_zero] at hs₁ ⊢
  rw [hbase] at hs₁
  cases hs₁
  exact ⟨s', hstep, hleads⟩

/-! ## Blocks by themselves -/

/-- Unless some jump of it does not reach, the block can stand anywhere: it begins with one state and ends with another,
and no jump leaves it. -/
def Flows (J : Discipline σ) (b : Block) (s t : Option σ) : Prop :=
  b.overflowed = false → ∀ base, ∃ D, J.Sub s (D base) ∧ D (base + b.size) = t ∧
    b.FitsIn J (fun x => ∃ y, x = base + y ∧ b.Boundary y) D base

namespace Flows

variable {s t u : Option σ}

theorem empty (s : Option σ) : Block.empty.Flows J s s := fun _ _ => ⟨fun _ => s, J.sub_refl s, rfl, fitsIn_empty⟩

/-- States before an offset and states from it on. -/
def glue (p : Nat) (D D' : Nat → Option σ) (x : Nat) : Option σ := if x < p then D x else D' x

theorem glue_of_lt {p x : Nat} (hx : x < p) : glue p D D' x = D x := if_pos hx

theorem glue_of_ge {p x : Nat} (hx : p ≤ x) : glue p D D' x = D' x := by
  rw [glue, if_neg (by omega)]

/-- A block may begin with more and end with less. -/
theorem mono {s' t' : Option σ} (h : b.Flows J s t) (hs : J.Sub s' s) (ht : J.Sub t t') : b.Flows J s' t' := by
  intro hover base
  obtain ⟨D, hD, hDe, hfits⟩ := h hover base
  refine ⟨glue (base + b.size) D fun _ => t', ?_, glue_of_ge (Nat.le_refl _), hfits.mono ?_ ?_ ?_⟩
  · rcases Nat.eq_zero_or_pos b.size with h0 | hpos
    · rw [h0, Nat.add_zero] at hDe
      rw [glue_of_ge (by omega)]
      exact (hs.trans (hDe ▸ hD)).trans ht
    · rw [glue_of_lt (by omega)]
      exact hs.trans hD
  · exact fun y hy => ⟨y, rfl, hy⟩
  · exact fun y hy => glue_of_lt (by omega)
  · rw [glue_of_ge (Nat.le_refl _), hDe]
    exact ht

theorem append (ha : a.Flows J s t) (hb : b.Flows J t u) : (a ++ b).Flows J s u := by
  intro hover base
  rw [overflowed_append, Bool.or_eq_false_iff] at hover
  obtain ⟨D, hD, hDe, hfits⟩ := ha hover.1 base
  obtain ⟨D', hD', hDe', hfits'⟩ := hb hover.2 (base + a.size)
  refine ⟨glue (base + a.size) D D', ?_, ?_, FitsIn.append (hfits.mono ?_ ?_ ?_) (hfits'.mono ?_ ?_ ?_)⟩
  · rcases Nat.eq_zero_or_pos a.size with h0 | hpos
    · rw [h0, Nat.add_zero] at hDe
      rw [glue_of_ge (by omega)]
      rw [hDe] at hD
      rw [h0, Nat.add_zero] at hD'
      exact hD.trans hD'
    · rw [glue_of_lt (by omega)]
      exact hD
  · rw [size_append, ← Nat.add_assoc, glue_of_ge (Nat.le_add_right _ _), hDe']
  · exact fun y hy => ⟨y, rfl, hy.append_right b⟩
  · exact fun y hy => glue_of_lt (by omega)
  · rw [glue_of_ge (Nat.le_refl _), hDe]
    exact hD'
  · exact fun y hy => ⟨a.size + y, by omega, hy.append_left a⟩
  · exact fun y hy => glue_of_ge (by omega)
  · rw [glue_of_ge (by omega)]
    exact J.sub_refl _

/-- The rule for an instruction that does not jump. It ends the code, or goes on behind itself. -/
theorem one {s s' : σ} (hadmits : J.admits i) (htarget : ∀ o, i.target? o = none) (hstep : J.step i s s')
    (ht : i.opcode.isTerminator = true ∨ t = some s') : (Block.one i).Flows J (some s) t := by
  intro _ base
  have hpos := i.size_pos
  refine ⟨glue (base + 1) (fun _ => some s) fun _ => t, ?_, ?_, ?_⟩
  · rw [glue_of_lt (Nat.lt_succ_self _)]
    exact J.sub_refl _
  · exact glue_of_ge (by rw [size_one]; omega)
  · refine fitsIn_one hadmits (fun w hw => ?_) (fun t ht => ?_) (glue_of_lt (by omega)) hstep fun x hx => ?_
    · subst hw
      simp [Instr.target?] at htarget
    · rw [htarget] at ht
      cases ht
    · simp only [Instr.leads, htarget, Option.toList_none, List.nil_append] at hx
      rcases ht with hends | rfl
      · rw [if_pos hends] at hx
        cases hx
      · split at hx
        · cases hx
        · rw [glue_of_ge (by rw [List.mem_singleton.1 hx]; omega)]
          exact J.sub_refl _

/-! ## Jumps -/

theorem leads_jump (w : UInt16) (o : Nat) : (Instr.jump w).leads o = [o + jumpSize + w.toNat] := rfl

theorem leads_jumpIfFalse (w : UInt16) (o : Nat) :
    (Instr.jumpIfFalse w).leads o = [o + jumpSize + w.toNat, o + jumpSize] := rfl

theorem leads_loop (w : UInt16) (o : Nat) : (Instr.loop w).leads o = [o + jumpSize - w.toNat] := rfl

/-- A jump over so many bytes, in its place. -/
theorem fitsIn_jump {d : Nat} (hover : (jumpBy .jump d).overflowed = false) (hadmits : ∀ w, J.admits (.jump w))
    (hstep : ∀ w s, D base = some s → J.step (.jump w) s s) (htarget : W (base + jumpSize + d))
    (hsub : J.Sub (D base) (D (base + jumpSize + d))) : (jumpBy .jump d).FitsIn J W D base := by
  obtain ⟨hd, heq⟩ := jumpBy_of_not_overflowed hover
  have hw : d.toUInt16.toNat = d := UInt16.toNat_ofNat_of_lt hd
  rw [heq]
  intro o i hi
  obtain ⟨rfl, rfl⟩ := stands_one.1 hi
  rw [Nat.add_zero]
  refine ⟨hadmits _, by rintro w ⟨⟩, ?_, fun s hs => ⟨s, hstep _ s hs, fun x hx => ?_⟩⟩
  · rintro t ⟨⟩
    rw [hw]
    exact htarget
  · rw [leads_jump, hw, List.mem_singleton] at hx
    rw [hx, ← hs]
    exact hsub

/-- A conditional jump over so many bytes, in its place. -/
theorem fitsIn_jumpIfFalse {d : Nat} {s s' : σ} (hover : (jumpBy .jumpIfFalse d).overflowed = false)
    (hadmits : ∀ w, J.admits (.jumpIfFalse w)) (hstep : ∀ w, J.step (.jumpIfFalse w) s s')
    (htarget : W (base + jumpSize + d)) (hbase : D base = some s) (hnext : J.Sub (some s') (D (base + jumpSize)))
    (hsub : J.Sub (some s') (D (base + jumpSize + d))) : (jumpBy .jumpIfFalse d).FitsIn J W D base := by
  obtain ⟨hd, heq⟩ := jumpBy_of_not_overflowed hover
  have hw : d.toUInt16.toNat = d := UInt16.toNat_ofNat_of_lt hd
  rw [heq]
  refine fitsIn_one (hadmits _) (by rintro w ⟨⟩) ?_ hbase (hstep _) fun x hx => ?_
  · rintro t ⟨⟩
    rw [hw]
    exact htarget
  · obtain rfl | rfl : x = base + jumpSize + d ∨ x = base + jumpSize := by
      simpa [leads_jumpIfFalse, hw] using hx
    · exact hsub
    · exact hnext

/-- A jump back over so many bytes, in its place. -/
theorem fitsIn_loop {d : Nat} {s : σ} (hover : (jumpBy .loop d).overflowed = false) (hadmits : ∀ w, J.admits (.loop w))
    (hstep : ∀ w, J.step (.loop w) s s) (hle : d ≤ base + jumpSize) (htarget : W (base + jumpSize - d))
    (hbase : D base = some s) (hsub : J.Sub (some s) (D (base + jumpSize - d))) :
    (jumpBy .loop d).FitsIn J W D base := by
  obtain ⟨hd, heq⟩ := jumpBy_of_not_overflowed hover
  have hw : d.toUInt16.toNat = d := UInt16.toNat_ofNat_of_lt hd
  rw [heq]
  refine fitsIn_one (hadmits _) ?_ ?_ hbase (hstep _) fun x hx => ?_
  · rintro w ⟨⟩
    rw [hw]
    exact hle
  · rintro t ⟨⟩
    rw [hw]
    exact htarget
  · rw [leads_loop, hw, List.mem_singleton] at hx
    rw [hx]
    exact hsub

/-! ## Conditionals and loops -/

/-- The states of a condition: with its value on the stack, and with the value taken. -/
structure Tests (J : Discipline σ) (s₁ s : σ) : Prop where
  admits : ∀ w, J.admits (.jumpIfFalse w)
  step : ∀ w, J.step (.jumpIfFalse w) s₁ s

variable {s₁ s₂ : σ} {test body yes no : Block}

theorem ifThen (htest : test.Flows J s (some s₁)) (hjump : Tests J s₁ s₂) (hbody : body.Flows J (some s₂) t)
    (hend : J.Sub (some s₂) t) : (Block.ifThen test body).Flows J s t := by
  rw [Block.ifThen, append_assoc]
  refine htest.append fun hover base => ?_
  rw [overflowed_append, Bool.or_eq_false_iff] at hover
  obtain ⟨D, hD, hDe, hfits⟩ := hbody hover.2 (base + jumpSize)
  have hsize : (jumpBy .jumpIfFalse body.size).size = jumpSize := size_jumpIfFalse _
  have hthree : jumpSize = 3 := rfl
  refine ⟨glue (base + 1) (fun _ => some s₁) D, ?_, ?_,
    .append_at (fitsIn_jumpIfFalse hover.1 hjump.admits hjump.step ?_ (glue_of_lt (by omega)) ?_ ?_) (by rw [hsize])
      (hfits.mono ?_ ?_ ?_)⟩
  · rw [glue_of_lt (by omega)]
    exact J.sub_refl _
  · rw [size_append, hsize, glue_of_ge (by omega), ← Nat.add_assoc, hDe]
  · exact ⟨_, by rw [size_append, hsize]; omega, boundary_size _⟩
  · rw [glue_of_ge (by omega)]
    exact hD
  · rw [glue_of_ge (by omega), hDe]
    exact hend
  · intro y hy
    refine ⟨jumpSize + y, by omega, ?_⟩
    have h := hy.append_left (jumpBy .jumpIfFalse body.size)
    rwa [hsize] at h
  · exact fun y hy => glue_of_ge (by omega)
  · rw [glue_of_ge (by omega)]
    exact J.sub_refl _

theorem ifElse (htest : test.Flows J s (some s₁)) (hjump : Tests J s₁ s₂) (hyes : yes.Flows J (some s₂) t)
    (hno : no.Flows J (some s₂) t) (hadmits : ∀ w, J.admits (.jump w)) (hstep : ∀ w s', t = some s' → J.step (.jump w) s' s') :
    (Block.ifElse test yes no).Flows J s t := by
  rw [Block.ifElse, append_assoc, append_assoc, append_assoc]
  refine htest.append fun hover base => ?_
  simp only [overflowed_append, Bool.or_eq_false_iff] at hover
  have hskip : (jumpBy .jumpIfFalse (yes.size + jumpSize)).size = jumpSize := size_jumpIfFalse _
  have hleave : (jumpBy .jump no.size).size = jumpSize := size_jump _
  have hthree : jumpSize = 3 := rfl
  obtain ⟨D, hD, hDe, hfits⟩ := hyes hover.2.1 (base + jumpSize)
  obtain ⟨D', hD', hDe', hfits'⟩ := hno hover.2.2.2 (base + jumpSize + yes.size + jumpSize)
  refine ⟨glue (base + 1) (fun _ => some s₁) (glue (base + jumpSize + yes.size + 1) D D'), ?_, ?_,
    .append_at (fitsIn_jumpIfFalse hover.1 hjump.admits hjump.step ?_ (glue_of_lt (by omega)) ?_ ?_) (by rw [hskip])
      (.append (hfits.mono ?_ ?_ ?_) (.append_at (fitsIn_jump hover.2.2.1 hadmits ?_ ?_ ?_) (by rw [hleave])
        (hfits'.mono ?_ ?_ ?_)))⟩
  · rw [glue_of_lt (by omega)]
    exact J.sub_refl _
  · simp only [size_append, hskip, hleave]
    rw [glue_of_ge (by omega), glue_of_ge (by omega), ← hDe']
    congr 1
    omega
  · refine ⟨jumpSize + (yes.size + (jumpSize + 0)), by omega, ?_⟩
    have h := (((boundary_zero no).append_left (jumpBy .jump no.size)).append_left yes).append_left
      (jumpBy .jumpIfFalse (yes.size + jumpSize))
    rwa [hskip, hleave] at h
  · rw [glue_of_ge (by omega), glue_of_lt (by omega)]
    exact hD
  · rw [glue_of_ge (by omega), glue_of_ge (by omega), ← Nat.add_assoc]
    exact hD'
  · intro y hy
    refine ⟨jumpSize + y, by omega, ?_⟩
    have h := (hy.append_right (jumpBy .jump no.size ++ no)).append_left (jumpBy .jumpIfFalse (yes.size + jumpSize))
    rwa [hskip] at h
  · exact fun y hy => (glue_of_ge (by omega)).trans (glue_of_lt (by omega))
  · rw [glue_of_ge (by omega), glue_of_lt (by omega)]
    exact J.sub_refl _
  · intro w s' hs'
    rw [glue_of_ge (by omega), glue_of_lt (by omega), hDe] at hs'
    exact hstep w s' hs'
  · refine ⟨_, ?_, boundary_size _⟩
    simp only [size_append, hskip, hleave]
    omega
  · rw [glue_of_ge (by omega), glue_of_lt (by omega), glue_of_ge (by omega), glue_of_ge (by omega), hDe, hDe']
    exact J.sub_refl _
  · refine fun y hy => ⟨jumpSize + (yes.size + (jumpSize + y)), by omega, ?_⟩
    have h := ((hy.append_left (jumpBy .jump no.size)).append_left yes).append_left
      (jumpBy .jumpIfFalse (yes.size + jumpSize))
    rwa [hskip, hleave] at h
  · exact fun y hy => (glue_of_ge (by omega)).trans (glue_of_ge (by omega))
  · rw [glue_of_ge (by omega), glue_of_ge (by omega)]
    exact J.sub_refl _

theorem repeatWhile (htest : test.Flows J (some s₂) (some s₁)) (hjump : Tests J s₁ s₂)
    (hbody : body.Flows J (some s₂) (some s₂)) (hadmits : ∀ w, J.admits (.loop w)) (hstep : ∀ w, J.step (.loop w) s₂ s₂) :
    (Block.repeatWhile test body).Flows J (some s₂) (some s₂) := by
  rw [Block.repeatWhile, append_assoc, append_assoc]
  intro hover base
  simp only [overflowed_append, Bool.or_eq_false_iff] at hover
  have hskip : (jumpBy .jumpIfFalse (body.size + jumpSize)).size = jumpSize := size_jumpIfFalse _
  have hback : (jumpBy .loop (test.size + jumpSize + body.size + jumpSize)).size = jumpSize := size_loop _
  have hthree : jumpSize = 3 := rfl
  obtain ⟨D, hD, hDe, hfits⟩ := htest hover.1 base
  obtain ⟨D', hD', hDe', hfits'⟩ := hbody hover.2.2.1 (base + test.size + jumpSize)
  refine ⟨glue (base + test.size + 1) D
      (glue (base + test.size + jumpSize + body.size + 1) D' fun _ => some s₂), ?_, ?_,
    .append (hfits.mono ?_ ?_ ?_) (.append_at (fitsIn_jumpIfFalse hover.2.1 hjump.admits hjump.step ?_ ?_ ?_ ?_)
      (by rw [hskip]) (.append (hfits'.mono ?_ ?_ ?_) (fitsIn_loop hover.2.2.2 hadmits hstep ?_ ?_ ?_ ?_)))⟩
  · rw [glue_of_lt (by omega)]
    exact hD
  · simp only [size_append, hskip, hback]
    rw [glue_of_ge (by omega), glue_of_ge (by omega)]
  · exact fun y hy => ⟨y, rfl, hy.append_right _⟩
  · exact fun y hy => glue_of_lt (by omega)
  · rw [glue_of_lt (by omega)]
    exact J.sub_refl _
  · refine ⟨_, ?_, boundary_size _⟩
    simp only [size_append, hskip, hback]
    omega
  · rw [glue_of_lt (by omega), hDe]
  · rw [glue_of_ge (by omega), glue_of_lt (by omega)]
    exact hD'
  · rw [glue_of_ge (by omega), glue_of_ge (by omega)]
    exact J.sub_refl _
  · refine fun y hy => ⟨test.size + (jumpSize + y), by omega, ?_⟩
    have h := ((hy.append_right (jumpBy .loop (test.size + jumpSize + body.size + jumpSize))).append_left
      (jumpBy .jumpIfFalse (body.size + jumpSize))).append_left test
    rwa [hskip] at h
  · exact fun y hy => (glue_of_ge (by omega)).trans (glue_of_lt (by omega))
  · rw [glue_of_ge (by omega), glue_of_lt (by omega)]
    exact J.sub_refl _
  · omega
  · exact ⟨0, by omega, boundary_zero _⟩
  · rw [glue_of_ge (by omega), glue_of_lt (by omega), hDe']
  · rw [glue_of_lt (by omega), show base + test.size + jumpSize + body.size + jumpSize -
      (test.size + jumpSize + body.size + jumpSize) = base by omega]
    exact hD

end Flows

end Block

end ClassTree
