import ClassTree.Proofs.Machine.TypedStep
import ClassTree.Proofs.Machine.VerifiedRun

/-!
# Runs of typed code

* Calls whose frames are typed give results of the types of their methods, however deep they are nested
  (`TypeSafe.drive`, `TypeSafe.frameAt`), and so every value has a text, unless making it ends for a reason that is to be
  expected (`TypeSafe.textOf`).
* `Machine.Typed.call`: in a typed machine a call of a method with arguments that can be converted gives a result of the type
  of the method, or it ends because there is no fuel left, a reference is null, a divisor is zero or there are too many calls;
  and it leaves the machine typed.
-/

namespace ClassTree

/-- The frames that wait for a frame, the first of them for its result, are typed but for that. -/
def Frame.Awaited (l : Loader) (h : Heap) : Frame → List Frame → Prop
  | _, [] => True
  | f, caller :: callers => caller.Typed l h f.returned ∧ caller.Awaited l h callers

/-- The type of what the last frame of a list gives, after a frame before it. -/
def Frame.resultType : Frame → List Frame → Ty
  | f, [] => f.target.method.ret
  | _, caller :: callers => caller.resultType callers

namespace Frame

variable {l : Loader} {h h' : Heap} {f g : Frame} {callers : List Frame}

theorem Awaited.mono (hf : f.Awaited l h callers) (hkept : ∀ id c, h.class? id = some c → h'.class? id = some c) :
    f.Awaited l h' callers := by
  induction callers generalizing f with
  | nil => trivial
  | cons caller callers ih => exact ⟨hf.1.mono hkept, ih hf.2⟩

/-- Who waits for a frame depends on what it returns alone. -/
theorem Awaited.congr (hf : f.Awaited l h callers) (htarget : g.target = f.target) (hkeep : g.keepResult = f.keepResult) :
    g.Awaited l h callers := by
  cases callers with
  | nil => trivial
  | cons caller callers =>
    refine ⟨?_, hf.2⟩
    rw [returned, htarget, hkeep]
    exact hf.1

theorem resultType_congr (htarget : g.target = f.target) : g.resultType callers = f.resultType callers := by
  cases callers with
  | nil => rw [resultType, resultType, htarget]
  | cons caller callers => rfl

end Frame

namespace TypeSafe

variable {l : Loader} (hl : l.Typed) {m : Machine}
include hl

/-- A run of a frame and of those that wait for it. -/
theorem drive {render : Value → Run String} (hrender : ∀ v m, m.Typed l → TypeSafe l (render v) m fun _ _ => True)
    {fuel : Nat} {f : Frame} {callers : List Frame} (hm : m.Typed l) (hf : f.Typed l m.heap [])
    (hcallers : f.Awaited l m.heap callers) :
    TypeSafe l (Run.drive Run.unwatched render fuel f callers) m fun w h => h.Conforms w (f.resultType callers) := by
  induction fuel generalizing m f callers with
  | zero => exact throw hm (.inl trivial)
  | succ fuel ih =>
    rw [Run.drive]
    refine bind (Q := fun _ _ => True) (pure hm trivial) fun _ m₁ h₁ _ => ?_
    refine bind (step hl hrender h₁.typed (hf.mono h₁.kept)) fun c m₂ h₂ hc => ?_
    have hcallers := hcallers.mono (h₁.trans h₂).kept
    cases c with
    | next g =>
      obtain ⟨hg, htarget, hkeep⟩ := hc
      rw [← Frame.resultType_congr htarget]
      exact ih h₂.typed hg (hcallers.congr htarget hkeep)
    | call caller callee =>
      obtain ⟨hcallee, hcaller, htarget, hkeep⟩ := hc
      refine bind (Q := fun _ _ => True) (changeDepth h₂.typed trivial) fun _ m₃ h₃ _ => ?_
      have hwaiting : callee.Awaited l m₃.heap (caller :: callers) :=
        ⟨hcaller.mono h₃.kept, (hcallers.congr htarget hkeep).mono h₃.kept⟩
      rw [← Frame.resultType_congr htarget]
      exact ih h₃.typed (hcallee.mono h₃.kept) hwaiting
    | ret g v =>
      obtain ⟨htarget, hkeep, hv⟩ := hc
      refine bind (Q := fun _ _ => True) (changeDepth h₂.typed trivial) fun _ m₃ h₃ _ => ?_
      obtain ⟨w, hw⟩ : ∃ w, m₃.heap.finish g.target.method v = .ok w := by
        rw [htarget]
        cases v with
        | none => exact Heap.finish_none _ _
        | some v => exact ⟨v, Heap.finish_eq (h₃.conforms (hv v rfl))⟩
      have hconforms : m₃.heap.Conforms w f.target.method.ret := by
        rw [← htarget]
        exact Heap.conforms_finish hw
      refine ask_bind hw ?_
      have hcallers := hcallers.mono h₃.kept
      cases callers with
      | nil => exact pure h₃.typed hconforms
      | cons caller callers =>
        obtain ⟨hcaller, hrest⟩ := hcallers
        have hnext := hcaller.resume hconforms
        have htarget' : (if f.keepResult then caller.push w else caller).target = caller.target := by split <;> rfl
        have hkeep' : (if f.keepResult then caller.push w else caller).keepResult = caller.keepResult := by split <;> rfl
        have hrun := ih h₃.typed hnext (hrest.congr htarget' hkeep')
        rw [Frame.resultType_congr htarget'] at hrun
        rw [hkeep]
        exact hrun

/-- A call that waits for its result. -/
theorem callWith {render : Value → Run String} (hrender : ∀ v m, m.Typed l → TypeSafe l (render v) m fun _ _ => True)
    {run : Frame → Run Value} (hrun : ∀ f m, m.Typed l → f.Typed l m.heap [] →
      TypeSafe l (run f) m fun w h => h.Conforms w f.target.method.ret)
    {t : Target} {sig : Signature} (ht : t.Serves l sig) (hm : m.Typed l) {receiver : Option Value}
    (hreceiver : t.Receives m.heap receiver) {args ws : List Value} (hlength : args.length = sig.params.length)
    (hws : m.heap.coerceAll args sig.params = .ok ws) :
    TypeSafe l (ClassTree.callWith render run t receiver args) m fun w h => h.Conforms w sig.ret := by
  refine bind (beginCall hl hrender ht hm hreceiver hlength hws) fun i m₁ h₁ hi => ?_
  cases i with
  | done v => exact pure h₁.typed hi
  | enter f =>
    obtain ⟨hf, hret⟩ := hi
    rw [← hret]
    exact hrun f m₁ h₁.typed hf

/-- The text of a value, for objects made by a method that every class has. -/
theorem textOf {run : Frame → Run Value} (hrun : ∀ f m, m.Typed l → f.Typed l m.heap [] →
      TypeSafe l (run f) m fun w h => h.Conforms w f.target.method.ret) (v : Value) (hm : m.Typed l) :
    TypeSafe l (ClassTree.textOf run v) m fun _ _ => True := by
  have hplain : ∀ (v : Value) (m : Machine), m.Typed l →
      TypeSafe l (do return (← get).heap.render v) m fun _ _ => True := fun v m hm => bind_get (pure hm trivial)
  cases v
  case object id =>
    refine bind_get ?_
    split
    · exact hplain _ m hm
    · rename_i t ht
      obtain ⟨c, hc, ht⟩ := Option.bind_eq_some_iff.1 ht
      have hheld := hm.holds hl.reachable.wellFormed (v := .object id) hc
      have hroot : (c.distance? .object).isSome = true := by
        have hlast := (hl.reachable.wellFormed.inPlace _ _ hheld.1).chain
        exact LoadedClass.isSome_distance? (List.mem_of_getLast? hlast)
      obtain ⟨t', ht', hserves, hstatic⟩ := hl.text.target c hheld.1 hheld.2 hroot
      obtain rfl : t = t' := Option.some.inj (ht.symm.trans ht')
      have hreceiver : t.Receives m.heap (some (.object id)) := by
        obtain ⟨k, hk, hown⟩ := List.exists_of_findSome?_eq_some ht
        obtain ⟨_, -, rfl⟩ := Option.map_eq_some_iff.1 hown
        rw [Target.Receives, if_neg (by simp [hstatic])]
        exact .cons ((Heap.conforms_ref_iff (v := .object id) hc).2 (LoadedClass.isSome_distance? hk)) .nil
      refine bind (callWith hl hplain hrun hserves hm hreceiver rfl rfl) fun w m₁ h₁ _ => ?_
      split
      · exact pure h₁.typed trivial
      · exact bind_get (pure h₁.typed trivial)
  all_goals exact hplain _ m hm

/-- Runs within each other. -/
theorem frameAt {fuel levels : Nat} {f : Frame} (hm : m.Typed l) (hf : f.Typed l m.heap []) :
    TypeSafe l (Run.frameAt Run.unwatched fuel levels f) m fun w h => h.Conforms w f.target.method.ret := by
  induction levels generalizing m f with
  | zero => exact throw hm (.inl trivial)
  | succ levels ih =>
    refine nest hm fun m₁ h₁ _ => ?_
    exact drive hl (fun v m hm => textOf hl (fun g m hm hg => ih hm hg) v hm) h₁.typed (hf.mono h₁.kept) trivial

theorem call (fuel : Nat) {t : Target} {sig : Signature} (ht : t.Serves l sig) (hm : m.Typed l) {receiver : Option Value}
    (hreceiver : t.Receives m.heap receiver) {args ws : List Value} (hlength : args.length = sig.params.length)
    (hws : m.heap.coerceAll args sig.params = .ok ws) :
    TypeSafe l (Run.call fuel t receiver args) m fun w h => h.Conforms w sig.ret := by
  have hrun : ∀ (f : Frame) (m : Machine), m.Typed l → f.Typed l m.heap [] →
      TypeSafe l (Run.frame Run.unwatched fuel f) m fun w h => h.Conforms w f.target.method.ret :=
    fun f m hm hf => frameAt hl hm hf
  exact callWith hl (fun v m hm => textOf hl hrun v hm) hrun ht hm hreceiver hlength hws

end TypeSafe

/-- The classes of a typed machine are verified. -/
theorem Machine.Typed.sound {l : Loader} (hl : l.Reachable) {m : Machine} (hm : m.Typed l) : m.Sound where
  loader := by
    rw [hm.loader]
    exact hl.sound
  heap id c hc := hl.sound _ c (hm.objects id c hc).1
  links name c hc := hl.sound name c (hm.links name c hc)

/-- A call of a method of a loader with typed code, with arguments that can be converted, gives a result of the type of the
method, or it ends for a reason that is to be expected; and the machine stays typed. -/
theorem Machine.Typed.call {l : Loader} (hl : l.Typed) {m : Machine} (hm : m.Typed l) (fuel : Nat) {t : Target}
    {sig : Signature} (ht : t.Serves l sig) {receiver : Option Value} (hreceiver : t.Receives m.heap receiver)
    {args ws : List Value} (hlength : args.length = sig.params.length) (hws : m.heap.coerceAll args sig.params = .ok ws) :
    Triple (Run.call fuel t receiver args) m (fun w m' => m.Onward l m' ∧ m'.heap.Conforms w sig.ret)
      fun e m' => m.Onward l m' ∧ e.Expected := by
  have hsound : t.Sound := ⟨hl.reachable.sound _ _ ht.holds, ht.mem⟩
  have htyped := TypeSafe.call hl fuel ht hm hreceiver hlength hws
  have hvalid := Safe.call Run.Watch.mild_unwatched fuel hsound receiver args m (hm.sound hl.reachable)
  unfold TypeSafe Triple at htyped
  unfold Triple at hvalid ⊢
  split
  · rename_i heq
    rw [heq] at htyped
    exact htyped
  · rename_i heq
    rw [heq] at htyped hvalid
    refine ⟨htyped.1, htyped.2.resolve_right fun hinvalid => ?_⟩
    rw [hvalid.2] at hinvalid
    cases hinvalid

end ClassTree
