import ClassTree.Proofs.Outcome

/-!
# What the verification of code establishes

* Every effect that decoding gives is that of the instruction at its offset (`decode_sound`).
* `Fits effects D`: wherever the assignment `D` has a depth, the instruction there finds the values that it takes, and
  every place to which control can go from there has the depth that the instruction leaves.
* `Walk.Step` and `Walk.Ends`: the walk that finds the depths, with any of the offsets to be visited taken next. Every
  order comes to an end (`Walk.wellFounded_step`). The depths that a walk ends with fit (`Walk.Ends.sound`), and within
  an assignment that fits no walk fails (`Walk.Ends.complete`), so that all orders end alike (`Walk.Ends.unique`).
* The check of the stack is one of these orders (`ends_checkStack`): the depths that it gives fit and begin with 0
  (`checkStack_sound`), and it succeeds whenever some assignment fits and begins so (`checkStack_complete`).
-/

namespace ClassTree

/-- The instruction that begins at an offset of a code array. -/
def Instr.at? (code : Array UInt8) (offset : Nat) : Option Instr :=
  code[offset]?.bind fun b => (Opcode.ofByte? b).bind fun op => Instr.withOperands? code (offset + 1) op

theorem Frame.fetch_eq_ok {f : Frame} {i : Instr} (h : Instr.at? f.code f.ip = some i) : f.fetch = .ok i := by
  obtain ⟨b, hb, h⟩ := Option.bind_eq_some_iff.1 h
  obtain ⟨op, hop, hi⟩ := Option.bind_eq_some_iff.1 h
  simp [Frame.fetch, hb, hop, hi]

namespace CodeCheck

variable {c : CodeCheck} {effects : Array (Option Effect)} {D : Nat → Option Nat}

/-! ## Decoding -/

/-- An effect that belongs to the instruction at an offset. -/
def Decoded (c : CodeCheck) (offset : Nat) (e : Effect) : Prop :=
  ∃ i, Instr.at? c.code offset = some i ∧ c.effect offset i = .ok e

theorem decodeFrom_sound {fuel offset : Nat} {done final : Array (Option Effect)}
    (h : c.decodeFrom fuel offset done = .ok final)
    (hdone : ∀ o e, done[o]? = some (some e) → c.Decoded o e) :
    final.size = done.size ∧ ∀ o e, final[o]? = some (some e) → c.Decoded o e := by
  induction fuel generalizing offset done with
  | zero => cases h; exact ⟨rfl, hdone⟩
  | succ fuel ih =>
    rw [decodeFrom] at h
    split at h
    · cases h; exact ⟨rfl, hdone⟩
    · rename_i b hb
      split at h
      · cases h
      · rename_i op hop
        split at h
        · cases h
        · rename_i i hi
          obtain ⟨e, he, h⟩ := bind_eq_ok.1 h
          have hat : Instr.at? c.code offset = some i := by simp [Instr.at?, hb, hop, hi]
          have hnext : ∀ o e', (done.setIfInBounds offset (some e))[o]? = some (some e') → c.Decoded o e' := by
            intro o e' ho
            rw [Array.getElem?_setIfInBounds] at ho
            split at ho
            · rename_i heq
              split at ho
              · cases ho; subst heq; exact ⟨i, hat, he⟩
              · cases ho
            · exact hdone o e' ho
          obtain ⟨hsize, hfinal⟩ := ih h hnext
          exact ⟨by rw [hsize, Array.size_setIfInBounds], hfinal⟩

/-- Every effect that decoding gives is that of the instruction at its offset. -/
theorem decode_sound (h : c.decode = .ok effects) :
    effects.size = c.code.size ∧ ∀ o e, effects[o]? = some (some e) → c.Decoded o e := by
  have hnone : ∀ o e, (Array.replicate c.code.size (none : Option Effect))[o]? = some (some e) → c.Decoded o e := by
    intro o e ho
    rw [Array.getElem?_replicate] at ho
    split at ho <;> cases ho
  obtain ⟨hsize, hfinal⟩ := decodeFrom_sound h hnone
  exact ⟨by rw [hsize, Array.size_replicate], hfinal⟩

/-! ## Depths that fit -/

/-- Wherever the assignment has a depth, the instruction there can be done, and leads to depths that it leaves. -/
def Fits (effects : Array (Option Effect)) (D : Nat → Option Nat) : Prop :=
  ∀ o d, D o = some d → ∃ e, effects[o]?.join = some e ∧ e.pops ≤ d ∧ d - e.pops + e.pushes ≤ maxStackDepth ∧
    ∀ s ∈ successors o e, D s = some (d - e.pops + e.pushes)

/-! ## The walk, in any order -/

theorem length_successors_le (o : Nat) (e : Effect) : (successors o e).length ≤ 2 := by
  unfold successors
  cases e.target <;> cases e.op.isTerminator <;> simp

/-- How many offsets have no depth yet. -/
def unvisited (depths : Array (Option Nat)) : Nat := depths.count none

theorem unvisited_set {depths : Array (Option Nat)} {o d : Nat} (h : depths[o]? = some none) :
    unvisited (depths.setIfInBounds o (some d)) + 1 = unvisited depths := by
  obtain ⟨ho, hv⟩ := Array.getElem?_eq_some_iff.1 h
  have hpos : 0 < depths.count none := Array.count_pos_iff.2 (hv ▸ Array.getElem_mem ho)
  rw [unvisited, unvisited, Array.setIfInBounds, dif_pos ho, Array.count_set]
  simp [hv]
  omega

theorem join_set {depths : Array (Option Nat)} {o d s : Nat} (h : depths[o]? = some none) :
    (depths.setIfInBounds o (some d))[s]?.join = if o = s then some d else depths[s]?.join := by
  obtain ⟨ho, -⟩ := Array.getElem?_eq_some_iff.1 h
  rw [Array.getElem?_setIfInBounds]
  by_cases hs : o = s
  · subst hs
    simp [ho]
  · simp [hs]

/-- A walk under way: the offsets still to be visited, with the stack depth there, and the depths found so far. -/
structure Walk where
  todo : List (Nat × Nat)
  depths : Array (Option Nat)

namespace Walk

/-- The walk over the whole code before its first step. -/
def start (effects : Array (Option Effect)) : Walk := ⟨[(0, 0)], Array.replicate effects.size none⟩

/-- A step takes any one of the offsets to be visited. It is done with an offset that has this depth already; another
gets its depth, and what follows it is to be visited. -/
inductive Step (effects : Array (Option Effect)) : Walk → Walk → Prop
  | known {todo rest : List (Nat × Nat)} {depths : Array (Option Nat)} {o d : Nat} (htake : todo.Perm ((o, d) :: rest))
      (hknown : depths[o]? = some (some d)) : Step effects ⟨todo, depths⟩ ⟨rest, depths⟩
  | visit {todo rest : List (Nat × Nat)} {depths : Array (Option Nat)} {o d : Nat} {e : Effect}
      (htake : todo.Perm ((o, d) :: rest)) (hnew : depths[o]? = some none) (he : effects[o]?.join = some e)
      (hpops : e.pops ≤ d) (hmax : d - e.pops + e.pushes ≤ maxStackDepth) :
      Step effects ⟨todo, depths⟩
        ⟨(successors o e).map (·, d - e.pops + e.pushes) ++ rest, depths.setIfInBounds o (some d)⟩

/-- An offset and a depth at which a walk fails. -/
inductive Refuses (effects : Array (Option Effect)) (depths : Array (Option Nat)) (o d : Nat) : Prop
  | outside (h : depths[o]? = none)
  | conflict {known : Nat} (h : depths[o]? = some (some known)) (hne : known ≠ d)
  | middle (hnew : depths[o]? = some none) (h : effects[o]?.join = none)
  | underflow {e : Effect} (hnew : depths[o]? = some none) (he : effects[o]?.join = some e) (h : d < e.pops)
  | tooDeep {e : Effect} (hnew : depths[o]? = some none) (he : effects[o]?.join = some e)
      (h : maxStackDepth < d - e.pops + e.pushes)

/-- What a walk can end with, over all orders in which it takes the offsets: the depths found, or none if it fails. -/
inductive Ends (effects : Array (Option Effect)) : Walk → Option (Array (Option Nat)) → Prop
  | done {depths : Array (Option Nat)} : Ends effects ⟨[], depths⟩ (some depths)
  | refused {w : Walk} {o d : Nat} (hmem : (o, d) ∈ w.todo) (h : Refuses effects w.depths o d) : Ends effects w none
  | step {w w' : Walk} {r : Option (Array (Option Nat))} (h : Step effects w w') (hends : Ends effects w' r) :
      Ends effects w r

/-- What bounds the number of steps. -/
def stepsLeft (w : Walk) : Nat := w.todo.length + 2 * unvisited w.depths

variable {w w' : Walk}

theorem Step.stepsLeft_lt (h : Step effects w w') : w'.stepsLeft < w.stepsLeft := by
  cases h with
  | known htake hknown =>
    have hlen := htake.length_eq
    simp only [stepsLeft, List.length_cons] at hlen ⊢
    omega
  | @visit todo rest depths o d e htake hnew he hpops hmax =>
    have hlen := htake.length_eq
    have hfree := unvisited_set (d := d) hnew
    have hsucc := length_successors_le o e
    simp only [stepsLeft, List.length_append, List.length_map, List.length_cons] at hlen ⊢
    omega

/-- Whatever the order, a walk comes to an end. -/
theorem wellFounded_step : WellFounded fun w' w => Step effects w w' :=
  Subrelation.wf (fun h => h.stepsLeft_lt) (measure stepsLeft).wf

theorem stepsLeft_start : (start effects).stepsLeft = 2 * effects.size + 1 := by
  simp [start, stepsLeft, unvisited]
  omega

/-- The places to which control goes from offsets that have a depth have theirs, or are still to be visited. -/
def Pending (effects : Array (Option Effect)) (w : Walk) : Prop :=
  ∀ o d, w.depths[o]?.join = some d → ∃ e, effects[o]?.join = some e ∧ e.pops ≤ d ∧
    d - e.pops + e.pushes ≤ maxStackDepth ∧
    ∀ s ∈ successors o e, w.depths[s]?.join = some (d - e.pops + e.pushes) ∨ (s, d - e.pops + e.pushes) ∈ w.todo

/-- A step keeps the depths found, and accounts for all that was to be visited. -/
theorem Step.keeps (h : Step effects w w') :
    (∀ o d : Nat, w.depths[o]?.join = some d → w'.depths[o]?.join = some d) ∧
      ∀ p ∈ w.todo, w'.depths[p.1]?.join = some p.2 ∨ p ∈ w'.todo := by
  cases h with
  | known htake hknown =>
    refine ⟨fun _ _ hd => hd, fun p hp => ?_⟩
    rcases List.mem_cons.1 (htake.mem_iff.1 hp) with rfl | hrest
    · exact .inl (by rw [hknown]; rfl)
    · exact .inr hrest
  | visit htake hnew he hpops hmax =>
    refine ⟨fun o' d' hd => ?_, fun p hp => ?_⟩
    · rw [join_set hnew]
      split
      · rename_i heq
        rw [← heq, hnew] at hd
        cases hd
      · exact hd
    · rcases List.mem_cons.1 (htake.mem_iff.1 hp) with rfl | hrest
      · exact .inl (by rw [join_set hnew]; simp)
      · exact .inr (List.mem_append_right _ hrest)

/-- What a walk has visited and what it has still to visit fit together after each step. -/
theorem Step.pending (h : Step effects w w') (hp : Pending effects w) : Pending effects w' := by
  obtain ⟨hkeep, htodo⟩ := h.keeps
  -- An offset that had its depth before the step: its successors are those of before.
  have hold : ∀ o d, w.depths[o]?.join = some d → ∃ e, effects[o]?.join = some e ∧ e.pops ≤ d ∧
      d - e.pops + e.pushes ≤ maxStackDepth ∧ ∀ s ∈ successors o e,
        w'.depths[s]?.join = some (d - e.pops + e.pushes) ∨ (s, d - e.pops + e.pushes) ∈ w'.todo := by
    intro o d hd
    obtain ⟨e, he, hpops, hmax, hsucc⟩ := hp o d hd
    exact ⟨e, he, hpops, hmax, fun s hs => (hsucc s hs).elim (fun hk => .inl (hkeep s _ hk)) (htodo (s, _))⟩
  cases h with
  | known htake hknown => exact hold
  | visit htake hnew he hpops hmax =>
    intro o' d' hd
    rw [join_set hnew] at hd
    split at hd
    · rename_i heq
      cases hd
      subst heq
      exact ⟨_, he, hpops, hmax, fun s hs => .inr (List.mem_append_left _ (List.mem_map_of_mem hs))⟩
    · exact hold o' d' hd

/-- The depths that a walk ends with fit, and contain all that it began with. -/
theorem Ends.sound {r : Option (Array (Option Nat))} (h : Ends effects w r) {final : Array (Option Nat)}
    (hr : r = some final) (hp : Pending effects w) :
    Fits effects (final[·]?.join) ∧ final.size = w.depths.size ∧
      (∀ o d : Nat, w.depths[o]?.join = some d → final[o]?.join = some d) ∧
      ∀ p ∈ w.todo, final[p.1]?.join = some p.2 := by
  induction h with
  | done =>
    cases hr
    refine ⟨fun o d hd => ?_, rfl, fun _ _ hd => hd, fun p hp => by cases hp⟩
    obtain ⟨e, he, hpops, hmax, hsucc⟩ := hp o d hd
    exact ⟨e, he, hpops, hmax, fun s hs => (hsucc s hs).resolve_right (by simp)⟩
  | refused => cases hr
  | step hstep _ ih =>
    obtain ⟨hfits, hsize, hdepths, hdone⟩ := ih hr (hstep.pending hp)
    obtain ⟨hkeep, htodo⟩ := hstep.keeps
    refine ⟨hfits, hsize.trans ?_, fun o d hd => hdepths o d (hkeep o d hd), fun p hm => ?_⟩
    · cases hstep <;> simp
    · exact (htodo p hm).elim (hdepths p.1 p.2) (hdone p)

/-- All that a walk has found and has still to visit is as the assignment says. -/
structure Within (effects : Array (Option Effect)) (D : Nat → Option Nat) (w : Walk) : Prop where
  size : w.depths.size = effects.size
  depths : ∀ o d, w.depths[o]?.join = some d → D o = some d
  todo : ∀ p ∈ w.todo, D p.1 = some p.2

theorem Step.within (h : Step effects w w') (hD : Fits effects D) (hw : Within effects D w) : Within effects D w' := by
  cases h with
  | known htake hknown => exact ⟨hw.size, hw.depths, fun p hp => hw.todo p (htake.mem_iff.2 (List.mem_cons_of_mem _ hp))⟩
  | @visit todo rest depths o d e htake hnew he hpops hmax =>
    have hd : D o = some d := hw.todo (o, d) (htake.mem_iff.2 List.mem_cons_self)
    obtain ⟨e', he', -, -, hsucc⟩ := hD o d hd
    obtain rfl : e = e' := Option.some.inj (he.symm.trans he')
    refine ⟨by simpa using hw.size, fun o' d' hd' => ?_, fun p hp => ?_⟩
    · rw [join_set hnew] at hd'
      split at hd'
      · rename_i heq
        cases hd'
        subst heq
        exact hd
      · exact hw.depths o' d' hd'
    · rcases List.mem_append.1 hp with hp | hp
      · obtain ⟨s, hs, rfl⟩ := List.mem_map.1 hp
        exact hsucc s hs
      · exact hw.todo p (htake.mem_iff.2 (List.mem_cons_of_mem _ hp))

/-- A walk does not fail at an offset with its depth in an assignment that fits. -/
theorem Within.not_refuses (hD : Fits effects D) (hw : Within effects D w) {o d : Nat} (hd : D o = some d) :
    ¬ Refuses effects w.depths o d := by
  obtain ⟨e, he, hpops, hmax, -⟩ := hD o d hd
  have ho : o < effects.size := by
    by_contra hge
    rw [Array.getElem?_eq_none (by omega)] at he
    cases he
  intro h
  cases h with
  | outside h =>
    rw [Array.getElem?_eq_none_iff, hw.size] at h
    omega
  | conflict h hne =>
    have hk := hw.depths o _ (by rw [h]; rfl)
    rw [hd] at hk
    exact hne (Option.some.inj hk).symm
  | middle _ h =>
    rw [he] at h
    cases h
  | underflow _ he' h =>
    rw [he] at he'
    cases he'
    omega
  | tooDeep _ he' h =>
    rw [he] at he'
    cases he'
    omega

/-- A walk within an assignment that fits does not fail, and finds only depths of the assignment. -/
theorem Ends.complete {r : Option (Array (Option Nat))} (h : Ends effects w r) (hD : Fits effects D)
    (hw : Within effects D w) : ∃ final, r = some final ∧ Within effects D ⟨[], final⟩ := by
  induction h with
  | done => exact ⟨_, rfl, hw⟩
  | refused hmem hrefuses => exact absurd hrefuses (hw.not_refuses hD (hw.todo _ hmem))
  | step hstep _ ih => exact ih (hstep.within hD hw)

theorem join_replicate_none {n o : Nat} : (Array.replicate n (none : Option Nat))[o]?.join = none := by
  rw [Array.getElem?_replicate]
  split <;> rfl

theorem pending_start : Pending effects (start effects) := by
  intro o d hd
  rw [start, join_replicate_none] at hd
  cases hd

theorem within_start (h0 : D 0 = some 0) : Within effects D (start effects) := by
  refine ⟨by simp [start], fun o d hd => ?_, fun p hp => ?_⟩
  · rw [start, join_replicate_none] at hd
    cases hd
  · rw [List.mem_singleton.1 hp]
    exact h0

/-- The depths that the walk over the whole code ends with fit, and the code begins with depth 0. -/
theorem Ends.fits {final : Array (Option Nat)} (h : Ends effects (start effects) (some final)) :
    Fits effects (final[·]?.join) ∧ final.size = effects.size ∧ final[0]?.join = some 0 := by
  obtain ⟨hfits, hsize, -, htodo⟩ := h.sound rfl pending_start
  exact ⟨hfits, by simpa [start] using hsize, htodo (0, 0) (by simp [start])⟩

/-- Two assignments of equal size, each of which has all the depths of the other, are equal. -/
theorem depths_eq {x y : Array (Option Nat)} (hsize : x.size = y.size)
    (hxy : ∀ o d : Nat, x[o]?.join = some d → y[o]?.join = some d)
    (hyx : ∀ o d : Nat, y[o]?.join = some d → x[o]?.join = some d) : x = y := by
  refine Array.ext hsize fun o hx hy => Option.ext fun d => ?_
  have hxo : x[o]?.join = x[o] := by rw [Array.getElem?_eq_getElem hx]; rfl
  have hyo : y[o]?.join = y[o] := by rw [Array.getElem?_eq_getElem hy]; rfl
  rw [← hxo, ← hyo]
  exact ⟨hxy o d, hyx o d⟩

/-- The end of the walk over the whole code does not depend on the order. -/
theorem Ends.unique {r r' : Option (Array (Option Nat))} (h : Ends effects (start effects) r)
    (h' : Ends effects (start effects) r') : r = r' := by
  -- Where one order succeeds, its depths fit, so every other order succeeds within them.
  have hkey : ∀ {s s' : Option (Array (Option Nat))} {final : Array (Option Nat)}, Ends effects (start effects) s →
      Ends effects (start effects) s' → s = some final → ∃ final', s' = some final' ∧ final'.size = effects.size ∧
        ∀ o d : Nat, final'[o]?.join = some d → final[o]?.join = some d := by
    rintro s s' final hs hs' rfl
    obtain ⟨hfits, -, h0⟩ := hs.fits
    obtain ⟨final', hfinal', hwithin⟩ := hs'.complete hfits (within_start h0)
    exact ⟨final', hfinal', hwithin.size, hwithin.depths⟩
  cases r with
  | some final =>
    obtain ⟨final', rfl, hsize', hsub⟩ := hkey h h' rfl
    obtain ⟨_, heq, hsize, hsup⟩ := hkey h' h rfl
    cases heq
    rw [depths_eq (hsize.trans hsize'.symm) hsup hsub]
  | none =>
    cases r' with
    | none => rfl
    | some final' =>
      obtain ⟨_, heq, -⟩ := hkey h' h rfl
      cases heq

end Walk

/-! ## The order in which code is checked -/

/-- With fuel left, `walk` takes the first offset to be visited: it fails there, or makes a step. -/
theorem walk_cons (c : CodeCheck) (effects : Array (Option Effect)) (o d : Nat) (todo : List (Nat × Nat))
    (depths : Array (Option Nat)) :
    (Walk.Refuses effects depths o d ∧ ∃ err, ∀ fuel, c.walk effects (fuel + 1) ((o, d) :: todo) depths = .error err) ∨
      ∃ w, Walk.Step effects ⟨(o, d) :: todo, depths⟩ w ∧
        ∀ fuel, c.walk effects (fuel + 1) ((o, d) :: todo) depths = c.walk effects fuel w.todo w.depths := by
  simp only [walk]
  cases hdepth : depths[o]? with
  | none => exact .inl ⟨.outside hdepth, _, fun _ => rfl⟩
  | some known? =>
    cases known? with
    | some known =>
      by_cases hk : known = d
      · subst hk
        exact .inr ⟨_, .known (.refl _) hdepth, fun _ => if_pos rfl⟩
      · exact .inl ⟨.conflict hdepth hk, _, fun _ => if_neg hk⟩
    | none =>
      cases he : effects[o]?.join with
      | none => exact .inl ⟨.middle hdepth he, _, fun _ => rfl⟩
      | some e =>
        by_cases hpops : d < e.pops
        · exact .inl ⟨.underflow hdepth he hpops, _, fun _ => if_pos hpops⟩
        · by_cases hmax : d - e.pops + e.pushes > maxStackDepth
          · exact .inl ⟨.tooDeep hdepth he hmax, _, fun _ => (if_neg hpops).trans (if_pos hmax)⟩
          · exact .inr ⟨_, .visit (.refl _) hdepth he (by omega) (by omega),
              fun _ => (if_neg hpops).trans (if_neg hmax)⟩

/-- With enough fuel, what `walk` gives is what a walk can end with. -/
theorem ends_walk {fuel : Nat} {w : Walk} (hfuel : w.stepsLeft < fuel) :
    Walk.Ends effects w (c.walk effects fuel w.todo w.depths).toOption := by
  induction fuel generalizing w with
  | zero => omega
  | succ fuel ih =>
    match w with
    | ⟨[], depths⟩ => exact .done
    | ⟨(o, d) :: todo, depths⟩ =>
      rcases walk_cons c effects o d todo depths with ⟨hrefuses, err, herr⟩ | ⟨w', hstep, hnext⟩
      · simp only [herr]
        exact .refused (o := o) (d := d) List.mem_cons_self hrefuses
      · simp only [hnext]
        have hless := hstep.stepsLeft_lt
        exact .step hstep (ih (by omega))

/-- More fuel than there are steps does not change what `walk` gives. -/
theorem walk_fuel {fuel more : Nat} {w : Walk} (hfuel : w.stepsLeft < fuel) (hmore : fuel ≤ more) :
    c.walk effects more w.todo w.depths = c.walk effects fuel w.todo w.depths := by
  induction fuel generalizing w more with
  | zero => omega
  | succ fuel ih =>
    obtain ⟨more, rfl⟩ : ∃ k, more = k + 1 := ⟨more - 1, by omega⟩
    match w with
    | ⟨[], depths⟩ => rfl
    | ⟨(o, d) :: todo, depths⟩ =>
      rcases walk_cons c effects o d todo depths with ⟨-, err, herr⟩ | ⟨w', hstep, hnext⟩
      · exact (herr more).trans (herr fuel).symm
      · have hless := hstep.stepsLeft_lt
        exact (hnext more).trans ((ih (by omega) (by omega)).trans (hnext fuel).symm)

theorem ends_checkStack : Walk.Ends effects (.start effects) (c.checkStack effects).toOption :=
  ends_walk (w := .start effects) (by rw [Walk.stepsLeft_start]; omega)

/-- The depths that the walk over the whole code ends with fit, and the code begins with depth 0. -/
theorem checkStack_sound {final : Array (Option Nat)} (h : c.checkStack effects = .ok final) :
    Fits effects (final[·]?.join) ∧ final[0]?.join = some 0 := by
  have hends : Walk.Ends effects (.start effects) (c.checkStack effects).toOption := ends_checkStack
  rw [h] at hends
  obtain ⟨hfits, -, h0⟩ := hends.fits
  exact ⟨hfits, h0⟩

/-- The walk succeeds on code for which depths fit that begin with 0. -/
theorem checkStack_complete (hD : Fits effects D) (h0 : D 0 = some 0) : ∃ final, c.checkStack effects = .ok final := by
  obtain ⟨final, hfinal, -⟩ := (ends_checkStack (c := c)).complete hD (Walk.within_start h0)
  refine ⟨final, ?_⟩
  cases h : c.checkStack effects with
  | ok depths =>
    rw [h] at hfinal
    cases hfinal
    rfl
  | error e =>
    rw [h] at hfinal
    cases hfinal

end CodeCheck

end ClassTree
