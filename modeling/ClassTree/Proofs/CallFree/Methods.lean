import ClassTree.Proofs.CallFree.Lowering
import ClassTree.Proofs.Loader.Compiled
import ClassTree.Proofs.Machine.Entry
import ClassTree.Proofs.Machine.Fuel

/-!
# Methods without calls

A call of a loaded static method without calls comes to what the body means on the arguments that were passed
(`LoweredClass.MethodLoaded.does`, `Run.ends_call_iff`), or else it is refused before the body is begun (`Target.refusal?`).
-/

namespace ClassTree

open Run

/-! ## Runs of bodies -/

/-- Ends a call with a value or without one. -/
def Run.handOver (m : LoadedMethod) (v : Option Value) : Run Value := do
  changeDepth (· - 1)
  Run.ask (·.finish m v)

/-- The result of a method whose body leads to this. -/
def Flow.result (m : LoadedMethod) : Flow → Run Value
  | .next _ => handOver m none
  | .ret v => handOver m v

theorem Run.handOver_eq (lm : LoadedMethod) (v : Option Value) (m : Machine) :
    handOver lm v m = match m.heap.finish lm v with
      | .ok v => .ok v { m with depth := m.depth - 1 }
      | .error e => .error (.failure e) { m with depth := m.depth - 1 } := by
  have hask : handOver lm v m = Run.ofExcept (m.heap.finish lm v) { m with depth := m.depth - 1 } := rfl
  rw [hask]
  cases m.heap.finish lm v <;> rfl

section Bodies

variable {render : Value → Run String} {n o : Nat} {f g : Frame} {m : Machine} {x : Run Flow}

theorem Frame.Leaves.drive {v : Option Value} (h : f.Leaves v g) (fuel : Nat) :
    Run.drive unwatched render (1 + fuel) g [] m = handOver f.target.method v m := by
  obtain ⟨htarget, h⟩ := h
  rw [handOver_eq, ← htarget]
  cases v with
  | some v => exact Returning.drive h render fuel m
  | none =>
    have hstep : g.step render m = .ok (.ret { g with ip := g.ip + Instr.retVoid.size } none) m := by
      rw [Frame.step_eq h]
      rfl
    rw [Nat.add_comm, drive_succ, hstep]
    dsimp only
    cases m.heap.finish g.target.method none <;> rfl

/-- A run of a body that returns on every way comes to the result that its meaning says, or else does not end. -/
theorem Run.Does.drive (h : Does render n f m x (f.Continues o)) (hreturns : ∀ slots m', x m ≠ .ok (.next slots) m') :
    (∃ k, ∀ fuel, Run.drive unwatched render (k + fuel) f [] m = (x >>= Flow.result f.target.method) m) ∨
      Starves render n f m ∧ ∃ m', (x >>= Flow.result f.target.method) m = .error .outOfFuel m' := by
  have hbind : (x >>= Flow.result f.target.method) m = EStateM.bind x (Flow.result f.target.method) m := rfl
  rw [hbind, EStateM.bind]
  unfold Does at h
  cases hx : x m with
  | error e m' =>
    rw [hx] at h
    cases e with
    | failure e =>
      obtain ⟨k, hk⟩ := h
      exact .inl ⟨k, fun fuel => hk fuel []⟩
    | outOfFuel => exact .inr ⟨h, m', rfl⟩
  | ok flow m' =>
    rw [hx] at h
    obtain ⟨k, g, hk, hg⟩ := h
    cases flow with
    | next slots => exact absurd hx (hreturns slots m')
    | ret v =>
      refine .inl ⟨k + 1, fun fuel => ?_⟩
      rw [Nat.add_assoc, hk]
      exact Frame.Leaves.drive hg fuel

end Bodies

/-! ## Calls -/

/-- The machine that a call from outside gives to the run of its frame. -/
def Machine.inside (m : Machine) : Machine := { m with depth := m.depth + 1, nestedRuns := m.nestedRuns + 1 }

/-- What a call from outside makes of the result of that run. -/
def Machine.outside (m : Machine) : EStateM.Result Halt Machine Value → EStateM.Result Halt Machine Value
  | .ok v m' => .ok v { m' with depth := m.depth, nestedRuns := m'.nestedRuns - 1 }
  | .error e m' => .error e { m' with depth := m.depth, nestedRuns := m'.nestedRuns - 1 }

/-- The texts of values in a call with so much fuel. -/
def Run.textsAt (fuel : Nat) : Value → Run String := textOf (frameAt unwatched fuel maxNestedRuns)

/-- Why a call of a static method with code is refused. -/
def Target.refusal? (t : Target) (args : List Value) (m : Machine) : Option RuntimeError :=
  if m.depth ≥ m.maxDepth then some (.stackOverflow m.maxDepth)
  else if args.length ≠ t.method.params.length then some (noSuchMethod t.cls t.method.name)
  else match m.heap.coerceAll args t.method.params with
    | .error e => some e
    | .ok _ => if m.nestedRuns ≥ maxNestedRuns then some (.stackOverflow m.depth) else none

section Calls

variable {t t' : Target} {maxLocals : UInt16} {code : Array UInt8} {args : List Value} {m : Machine}

theorem Target.refusal?_congr (hcls : t.cls.name = t'.cls.name) (hname : t.method.name = t'.method.name)
    (hparams : t.method.params = t'.method.params) : t.refusal? args m = t'.refusal? args m := by
  simp only [refusal?, noSuchMethod, hcls, hname, hparams]

theorem Target.refusal?_eq_none (h : t.refusal? args m = none) :
    m.depth < m.maxDepth ∧ args.length = t.method.params.length ∧ m.nestedRuns < maxNestedRuns ∧
      ∃ passed, m.heap.coerceAll args t.method.params = .ok passed := by
  unfold refusal? at h
  split at h
  · cases h
  · rename_i hdepth
    split at h
    · cases h
    · rename_i hlength
      split at h
      · cases h
      · rename_i passed hargs
        split at h
        · cases h
        · rename_i hnested
          exact ⟨by omega, by simpa using hlength, by omega, passed, hargs⟩

/-- A call that is refused fails at once. -/
theorem Target.call_of_refusal? (hbody : t.method.body = .code maxLocals code) {e : RuntimeError}
    (h : t.refusal? args m = some e) (fuel : Nat) : Run.call fuel t none args unwatched m = .error (.failure e) m := by
  unfold refusal? at h
  have hbegin : ∀ e, beginCall (stringify fuel) t none args m = .error (.failure e) m →
      Run.call fuel t none args unwatched m = .error (.failure e) m := by
    intro e he
    rw [Run.call, callWith]
    change EStateM.bind _ _ m = _
    rw [EStateM.bind, he]
  split at h
  · rename_i hdepth
    cases h
    refine hbegin _ ?_
    unfold beginCall
    change (if m.depth ≥ m.maxDepth then _ else _ : Run Invocation) m = _
    rw [if_pos hdepth]
    rfl
  · rename_i hdepth
    split at h
    · rename_i hlength
      cases h
      refine hbegin _ ?_
      unfold beginCall
      change (if m.depth ≥ m.maxDepth then _ else _ : Run Invocation) m = _
      rw [if_neg hdepth, if_pos hlength]
      rfl
    · rename_i hlength
      split at h
      · rename_i e' hargs
        cases h
        refine hbegin _ ?_
        unfold beginCall
        change (if m.depth ≥ m.maxDepth then _ else _ : Run Invocation) m = _
        rw [if_neg hdepth, if_neg hlength]
        change EStateM.bind (Run.ask fun h => h.coerceAll args t.method.params) _ m = _
        rw [EStateM.bind, ask_eq_error hargs]
      · rename_i passed hargs
        split at h
        · rename_i hnested
          cases h
          rw [call_eq_nest hbody (by simpa using hlength) hargs (by omega)]
          exact if_pos hnested
        · cases h

/-- What a call comes to, if the run of its frame comes to what a meaning says, or else does not end. -/
theorem Run.ends_call_iff {passed : List Value} (hbody : t.method.body = .code maxLocals code)
    (hlength : args.length = t.method.params.length) (hargs : m.heap.coerceAll args t.method.params = .ok passed)
    (hdepth : m.depth < m.maxDepth) (hnested : m.nestedRuns < maxNestedRuns) {z : Nat → Run Value} {f : Frame}
    (hf : f = { target := t, code, locals := initialLocals none passed maxLocals })
    (hz : ∀ n, (∃ k, ∀ fuel, Run.drive unwatched (textsAt n) (k + fuel) f [] m.inside = z n m.inside) ∨
      Starves (textsAt n) n f m.inside ∧ ∃ m', z n m.inside = .error .outOfFuel m')
    (r : EStateM.Result Halt Machine Value) :
    Ends (fun fuel => Run.call fuel t none args) m r ↔
      ∃ n, (∀ m', z n m.inside ≠ .error .outOfFuel m') ∧ r = m.outside (z n m.inside) := by
  have hcall : ∀ fuel, Run.call fuel t none args unwatched m =
      m.outside (Run.drive unwatched (textsAt fuel) fuel f [] m.inside) := by
    intro fuel
    rw [call_eq_nest hbody hlength hargs hdepth, nest_eq hnested, ← hf]
    change _ = m.outside (Run.drive unwatched (textOf (frameAt unwatched fuel maxNestedRuns)) fuel f [] m.inside)
    unfold Machine.inside
    generalize Run.drive unwatched (textOf (frameAt unwatched fuel maxNestedRuns)) fuel f [] _ = x
    cases x <;> rfl
  have hfuel : ∀ {x : EStateM.Result Halt Machine Value}, (∀ m', m.outside x ≠ .error .outOfFuel m') ↔
      ∀ m', x ≠ .error .outOfFuel m' := by
    intro x
    cases x with
    | ok v m' => exact ⟨nofun, nofun⟩
    | error e m' =>
      cases e with
      | failure e => exact ⟨nofun, nofun⟩
      | outOfFuel => exact ⟨fun h => absurd rfl (h _), fun h => absurd rfl (h _)⟩
  constructor
  · rintro ⟨⟨fuel, rfl⟩, hends⟩
    dsimp only at hends ⊢
    rw [hcall, hfuel] at hends
    refine ⟨fuel, ?_⟩
    rcases hz fuel with ⟨k, hk⟩ | ⟨hstarves, -⟩
    · have heq := hk fuel
      rw [Nat.add_comm, drive_add hends] at heq
      rw [← heq]
      exact ⟨hends, hcall fuel⟩
    · obtain ⟨m', hm'⟩ := hstarves fuel (Nat.le_refl fuel) []
      exact absurd hm' (hends m')
  · rintro ⟨n, hends, rfl⟩
    refine ⟨?_, hfuel.2 hends⟩
    rcases hz n with ⟨k, hk⟩ | ⟨-, m', hm'⟩
    · -- More fuel for the texts changes nothing, since the run ends.
      refine ⟨max n (k + 0), ?_⟩
      have htexts := Below.textOf (Below.frameAt unwatched (Nat.le_max_left n (k + 0)) maxNestedRuns)
      have hmore := (Below.drive htexts unwatched (Nat.le_max_right n (k + 0)) f []).eq (m := m.inside)
        (show ∀ m', Run.drive unwatched (textsAt n) (k + 0) f [] m.inside ≠ _ by rw [hk 0]; exact hends)
      change Run.call _ t none args unwatched m = _
      rw [hcall]
      exact congrArg m.outside (hmore.trans (hk 0))
    · exact absurd hm' (hends m')

end Calls

/-! ## Arguments -/

/-- The values of the slots at the start of a call. -/
def Slots.ofArgs (args : List Value) : Slots := fun i => args[i]?.getD .null

theorem Frame.stands_entry (t : Target) (code : Array UInt8) (args : List Value) (maxLocals : UInt16) :
    Frame.Stands { target := t, code, locals := initialLocals none args maxLocals } 0 [] (.ofArgs args)
      { target := t, code, locals := initialLocals none args maxLocals } := by
  refine ⟨initialLocals none args maxLocals, rfl, rfl, fun i hi => ?_⟩
  simp only [initialLocals, Option.toList_none, List.nil_append, List.size_toArray, List.length_append,
    List.length_replicate] at hi
  simp only [initialLocals, Option.toList_none, List.nil_append, List.getElem?_toArray, Slots.ofArgs]
  by_cases hlt : i < args.length
  · rw [List.getElem?_append_left hlt, List.getElem?_eq_getElem hlt]
    rfl
  · rw [List.getElem?_append_right (by omega), List.getElem?_replicate, if_pos (by omega),
      List.getElem?_eq_none (by omega)]
    rfl

/-- Whether every text parameter gets a text. -/
def passesTexts (params : List Param) (args : List Value) : Bool :=
  (params.zip args).all fun (p, v) => !p.ty.isString || v.str?.isSome

section Arguments

variable {texts : Bool} {params : List Param} {args passed : List Value}

/-- Arguments that were converted are of the types of their parameters. -/
theorem hasTypes_of_coerceAll {h : Heap} (hlength : args.length = params.length)
    (hparams : ∀ p ∈ params, p.ty.isVoid = false) (hargs : h.coerceAll args (params.map (·.ty.erased)) = .ok passed)
    (htexts : texts = true → passesTexts params args = true) :
    List.Forall₂ (fun p v => Value.HasType texts v p.ty) params passed := by
  induction params generalizing args passed with
  | nil =>
    obtain rfl : args = [] := List.eq_nil_of_length_eq_zero hlength
    cases hargs
    exact .nil
  | cons p params ih =>
    cases args with
    | nil => cases hlength
    | cons v args =>
      rw [List.map_cons, Heap.coerceAll] at hargs
      obtain ⟨w, hw, hargs⟩ := bind_eq_ok.1 hargs
      obtain ⟨ws, hws, hargs⟩ := bind_eq_ok.1 hargs
      cases hargs
      have hfirst : texts = true → (!p.ty.isString || v.str?.isSome) = true ∧ passesTexts params args = true := by
        intro htrue
        have hall := htexts htrue
        rw [passesTexts, List.zip_cons_cons, List.all_cons, Bool.and_eq_true] at hall
        exact hall
      refine .cons (Heap.hasType_of_coerce (hparams p (List.mem_cons_self ..)) hw fun htrue hstring => ?_) (ih ?_ ?_ hws ?_)
      · have hsome := (hfirst htrue).1
        rw [hstring] at hsome
        cases v with
        | str t => exact ⟨t, rfl⟩
        | _ => cases hsome
      · simpa using hlength
      · exact fun q hq => hparams q (List.mem_cons_of_mem _ hq)
      · exact fun htrue => (hfirst htrue).2

/-- The parameters hold values of their types if such stand in the slots that come next. -/
theorem Slots.Typed.afterParams {scope : Scope} {slots : Slots} (h : slots.Typed texts scope)
    (hdeclares : scope.DeclaresAll params) (htypes : List.Forall₂ (fun p v => Value.HasType texts v p.ty) params passed)
    (hslots : ∀ (i : Nat) v, passed[i]? = some v → slots (scope.nextSlot + i) = v) :
    slots.Typed texts (afterParams params scope) := by
  induction htypes generalizing scope with
  | nil => exact h
  | @cons p v params passed hv _ ih =>
    obtain ⟨⟨slot, hslot⟩, hrest⟩ := hdeclares
    have hd : scope.declare p.name p.ty = (.ok slot, (scope.declare p.name p.ty).2) := Prod.ext hslot rfl
    obtain ⟨-, hnumber, hscope⟩ := Scope.declare_eq_ok hd
    -- The value stands in the slot already, so storing it changes nothing.
    have hfirst : slots slot.toNat = v := by
      rw [hnumber]
      exact hslots 0 v rfl
    have htyped := h.declare hd hv
    rw [← hfirst, Function.update_eq_self] at htyped
    have hnext : (scope.declare p.name p.ty).2.nextSlot = scope.nextSlot + 1 := by rw [hscope]
    refine ih htyped hrest fun i w hw => ?_
    rw [hnext, show scope.nextSlot + 1 + i = scope.nextSlot + (i + 1) by omega]
    exact hslots (i + 1) w hw

/-- At the start of a call the parameters hold values of their types. -/
theorem Slots.typed_ofArgs (hdeclares : Scope.ofStatic.DeclaresAll params)
    (htypes : List.Forall₂ (fun p v => Value.HasType texts v p.ty) params passed) :
    (Slots.ofArgs passed).Typed texts (afterParams params .ofStatic) := by
  refine Slots.Typed.afterParams ⟨[], Scope.shows_ofStatic, nofun⟩ hdeclares htypes fun i v hv => ?_
  have hzero : Scope.ofStatic.nextSlot + i = i := Nat.zero_add i
  rw [hzero, Slots.ofArgs, hv]
  rfl

end Arguments

/-! ## Compiled methods -/

/-- What a static method means: its body as it was lowered, on the arguments. -/
def MethodDef.meaning (md : MethodDef) (optimize : Bool) (body : List Stmt) (types : Option Context)
    (held : Double → Double) (render : Value → Run String) (rounds : Nat) (args : List Value) : Run Flow :=
  (Stmt.block (lowerBody optimize body)).perform ⟨types, held, render, rounds⟩ md.ret (afterParams md.params .ofStatic)
    (.ofArgs args)

theorem MethodDef.meaning_ne_next {md : MethodDef} {optimize : Bool} {body : List Stmt} {types : Option Context}
    {held : Double → Double} {render : Value → Run String} {rounds : Nat} {args : List Value} {slots : Slots}
    {m m' : Machine} : md.meaning optimize body types held render rounds args m ≠ .ok (.next slots) m' :=
  Stmt.perform_ne_next (by rw [Stmt.alwaysReturns]; exact anyReturns_lowerBody optimize body)

/-- What a call of the method comes to with so much fuel. -/
def MethodDef.outcome (md : MethodDef) (optimize : Bool) (body : List Stmt) (types : Option Context)
    (held : Double → Double) (lm : LoadedMethod) (args : List Value) (fuel : Nat) : Run Value :=
  md.meaning optimize body types held (textsAt fuel) fuel args >>= Flow.result lm

/-- The run of a loaded method without calls does what the method means. -/
theorem LoweredClass.MethodLoaded.does {b : Binding} {r : Registry} {entry : ClassEntry} {cls : LoadedClass}
    {lm : LoadedMethod} {md : MethodDef} {optimize : Bool} {body : List Stmt}
    (h : MethodLoaded b r entry cls.constants (ClassDef.lowerMethod optimize md) lm) (hverified : cls.Verified)
    (hmem : lm ∈ cls.methods) (hdistinct : (cls.constants.doubles.map Double.canonical).Nodup)
    (hbody : md.body = some body) (hstatic : md.modifiers.isStatic = true) (habstract : md.modifiers.isAbstract = false)
    (hfree : Stmt.allCallFree body = true)
    (hw : b = .static → (Stmt.block (lowerBody optimize body)).WellTyped (.ofMethod r entry md)
      (afterParams md.params .ofStatic)) :
    ∃ maxLocals code, lm.body = .code maxLocals code ∧ ∀ (args : List Value) (f : Frame),
      f = { target := ⟨cls, lm⟩, code, locals := initialLocals none args maxLocals } → ∀ render n m, ∃ o,
        Does render n f m (md.meaning optimize body (b.context? (.ofMethod r entry md)) (heldFor cls.constants.doubles)
          render n args) (f.Continues o) := by
  have hlower : ClassDef.lowerMethod optimize md =
      ⟨md.name, md.modifiers, md.params, md.ret, .method (lowerBody optimize body)⟩ := by
    rw [ClassDef.lowerMethod, hbody]
  rw [hlower] at h
  obtain ⟨mc, p, q, hlmBody, hcompile, hwithin⟩ := h.code habstract
  refine ⟨mc.maxLocals, mc.code, hlmBody, ?_⟩
  rintro args f rfl render n m
  obtain ⟨code, hover, hcode, hperforms⟩ := (compileMethod_performs (c := .ofMethod r entry md)
    (s := ⟨b.context? (.ofMethod r entry md), heldFor cls.constants.doubles, render, n⟩) hstatic rfl ⟨rfl, hdistinct⟩ rfl
    (lowerBody_callFree optimize hfree) hw p mc q hcompile).2 hwithin
  have hin := Block.in_entered hverified hmem (hcode ▸ hlmBody) hover args
  rw [← hcode] at hin
  exact ⟨_, hperforms _ 0 [] (.ofArgs args) _ m rfl hin (Frame.stands_entry _ _ _ _)⟩

end ClassTree
