import ClassTree.Proofs.Machine.VerifiedStep

/-!
# Runs of verified code

* Every frame that a run reaches is in order if the frame that it begins with is ready (`Safe.drive`, `Safe.frameAt`).
  This is said of all runs with a watch that does no harm as long as the frames that it sees are in order, and so of
  those with `Run.inspector`, which halts a run at the first frame that is not.
* `Request.never_invalid`: whatever bytes are given to a loader as class files, and whatever is asked of the machine over
  it, with whatever arguments, no call ends because of invalid code, and every frame on the way is in order.
-/

namespace ClassTree

namespace Frame

/-- A frame that is ready and waits for nothing is in order. -/
theorem Ready.inOrder {f : Frame} (h : f.Ready 0) : f.inOrder = true := by
  obtain ⟨htarget, k, effects, depths, hk, hcode, hanalyze, hdepth, hlocals⟩ := h
  obtain ⟨hdecode, hstack⟩ := CodeCheck.analyze_eq_ok hanalyze
  obtain ⟨hfits, -⟩ := CodeCheck.checkStack_sound hstack
  obtain ⟨e, he, -⟩ := hfits f.ip _ hdepth
  obtain ⟨i, hi, heffect⟩ := (CodeCheck.decode_sound hdecode).2 f.ip e (Option.join_eq_some_iff.1 he)
  have hconstants := LoadedMethod.check?_constants hk
  have hsupplied := CodeCheck.isSupplied_of_effect
    (by rw [hconstants]; exact htarget.cls.verified.constants) heffect
  rw [hconstants] at hsupplied
  rw [hcode] at hi
  simp [Frame.inOrder, hk, hi, hanalyze, hcode, he, hdepth, hlocals, hsupplied]

/-- Taking a result that is pending makes a frame ready. -/
theorem Ready.resume {f : Frame} {keep : Bool} (h : f.Ready (if keep then 1 else 0)) (v : Value) :
    Ready (if keep then f.push v else f) 0 := by
  cases keep with
  | false => exact h
  | true =>
    obtain ⟨htarget, k, effects, depths, hk, hcode, hanalyze, hdepth, hlocals⟩ := h
    exact ⟨htarget, k, effects, depths, hk, hcode, hanalyze, hdepth, hlocals⟩

theorem keepResult_resume (f : Frame) (keep : Bool) (v : Value) :
    (if keep then f.push v else f).keepResult = f.keepResult := by
  cases keep <;> rfl

end Frame

/-- The frames that wait, the first of them for a result that is kept or not, are ready but for that. -/
def Waiting : Bool → List Frame → Prop
  | _, [] => True
  | keep, f :: callers => f.Ready (if keep then 1 else 0) ∧ Waiting f.keepResult callers

/-- The watch does no harm to a run as long as the frames that it sees are ready. -/
def Run.Watch.Mild (watch : Run.Watch) : Prop :=
  ∀ f callers, f.Ready 0 → Safe (watch f callers) fun _ => True

/-- Halts a run at the first frame that is not in order. -/
def Run.inspector : Run.Watch := fun f _ =>
  if f.inOrder then pure () else Run.fail (f.invalid "frame out of order")

theorem Run.Watch.mild_unwatched : Run.Watch.Mild Run.unwatched := fun _ _ _ => .pure trivial

theorem Run.Watch.mild_inspector : Run.Watch.Mild Run.inspector := by
  intro f callers h
  rw [Run.inspector, if_pos h.inOrder]
  exact .pure trivial

namespace Safe

variable {watch : Run.Watch} (hwatch : watch.Mild)
include hwatch

theorem drive {render : Value → Run String} (hrender : ∀ v, Safe (render v) fun _ => True) {fuel : Nat}
    {f : Frame} {callers : List Frame} (hf : f.Ready 0) (hcallers : Waiting f.keepResult callers) :
    Safe (Run.drive watch render fuel f callers) fun _ => True := by
  induction fuel generalizing f callers with
  | zero => exact throw rfl
  | succ fuel ih =>
    rw [Run.drive]
    refine bind (hwatch f callers hf) fun _ _ => bind (hf.step hrender) fun c hc => ?_
    cases c with
    | next g =>
      obtain ⟨hready, hkeep⟩ := hc
      exact ih hready (by rw [hkeep]; exact hcallers)
    | call caller callee =>
      obtain ⟨hready, hcaller, hkeep⟩ := hc
      refine bind (Q := fun _ => True) (changeDepth trivial) fun _ _ => ?_
      exact ih hready ⟨hcaller, by rw [hkeep]; exact hcallers⟩
    | ret g v =>
      refine bind (Q := fun _ => True) (changeDepth trivial) fun _ _ => ?_
      refine bind (Q := fun _ => True) (ask (fun _ _ _ => trivial) fun _ _ => Heap.finish_valid) fun w _ => ?_
      rw [← show g.keepResult = f.keepResult from hc] at hcallers
      match callers, hcallers with
      | [], _ => exact pure trivial
      | caller :: callers, ⟨hcaller, hrest⟩ =>
        exact ih (hcaller.resume w) (by rw [Frame.keepResult_resume]; exact hrest)

omit hwatch in
theorem callWith {render : Value → Run String} (hrender : ∀ v, Safe (render v) fun _ => True)
    {run : Frame → Run Value} (hrun : ∀ f : Frame, f.Ready 0 → Safe (run f) fun _ => True) {t : Target}
    (ht : t.Sound) (receiver : Option Value) (args : List Value) :
    Safe (ClassTree.callWith render run t receiver args) fun _ => True := by
  refine bind (beginCall hrender ht receiver args) fun i hi => ?_
  cases i with
  | done v => exact pure trivial
  | enter f => exact hrun f hi

omit hwatch in
theorem textOf {run : Frame → Run Value} (hrun : ∀ f : Frame, f.Ready 0 → Safe (run f) fun _ => True) (v : Value) :
    Safe (ClassTree.textOf run v) fun _ => True := by
  cases v
  case object id =>
    refine bind get fun m hm => ?_
    split
    · exact bind get fun _ _ => pure trivial
    · rename_i t ht
      obtain ⟨cls, hcls, ht⟩ := Option.bind_eq_some_iff.1 ht
      have htarget := LoadedClass.sound_of_findMethod? (hm.heap id cls hcls) ht
      refine bind (callWith (fun _ => bind get fun _ _ => pure trivial) hrun htarget _ _) fun w _ => ?_
      split
      · exact pure trivial
      · exact bind get fun _ _ => pure trivial
  all_goals exact bind get fun _ _ => pure trivial

theorem frameAt {fuel levels : Nat} {f : Frame} (hf : f.Ready 0) :
    Safe (Run.frameAt watch fuel levels f) fun _ => True := by
  induction levels generalizing f with
  | zero => exact throw rfl
  | succ levels ih => exact nest (drive hwatch (textOf fun g hg => ih hg) hf trivial)

theorem stringify (fuel : Nat) (v : Value) : Safe (Run.stringify fuel v watch) fun _ => True :=
  textOf (fun _ hf => frameAt hwatch hf) v

theorem call (fuel : Nat) {t : Target} (ht : t.Sound) (receiver : Option Value) (args : List Value) :
    Safe (Run.call fuel t receiver args watch) fun _ => True :=
  callWith (stringify hwatch fuel) (fun _ hf => frameAt hwatch hf) ht receiver args

theorem construct (fuel : Nat) {cls : LoadedClass} (hcls : cls.Sound) (args : List Value) :
    Safe (Run.construct fuel cls args watch) fun _ => True := by
  unfold Run.construct
  refine failIf rfl fun _ => ?_
  refine bind (alloc hcls) fun v _ => bind (constructorTarget hcls args) fun t ht => ?_
  exact bind (call hwatch fuel ht _ _) fun _ _ => pure trivial

theorem instantiate (fuel : Nat) {cls : LoadedClass} (hcls : cls.Sound) (args : List Value) :
    Safe (Run.instantiate fuel cls args watch) fun _ => True := by
  unfold Run.instantiate
  exact failIf rfl fun _ => construct hwatch fuel hcls args

theorem instantiateInner (fuel : Nat) {cls : LoadedClass} (hcls : cls.Sound) (outer : Value) (args : List Value) :
    Safe (Run.instantiateInner fuel cls outer args watch) fun _ => True := by
  unfold Run.instantiateInner
  refine failIf rfl fun _ => ?_
  exact failIf rfl fun _ => construct hwatch fuel hcls (outer :: args)

theorem invoke (fuel : Nat) (receiver : Value) (name : String) (args : List Value) :
    Safe (Run.invoke fuel receiver name args watch) fun _ => True :=
  bind (virtualTarget receiver name args) fun _ ht => call hwatch fuel ht _ args

theorem invokeStatic (fuel : Nat) {cls : LoadedClass} (hcls : cls.Sound) (name : String) (args : List Value) :
    Safe (Run.invokeStatic fuel cls name args watch) fun _ => True :=
  bind (staticTarget hcls name args) fun _ ht => call hwatch fuel ht none args

end Safe

/-! ## Sessions -/

/-- A class that is or was defined by some loader. -/
def LoadedClass.Defined (c : LoadedClass) : Prop := ∃ l : Loader, l.Reachable ∧ ∃ name, l.resolve? name = some c

theorem LoadedClass.Defined.sound {c : LoadedClass} (h : c.Defined) : c.Sound := by
  obtain ⟨l, hl, name, hc⟩ := h
  exact hl.sound name c hc

/-- What can be asked of a machine and its loader. -/
inductive Request where
  | define (name : String) (bytes : Bytes)
  | defineAll (artifacts : List Artifact)
  | instantiate (cls : LoadedClass) (args : List Value)
  | instantiateInner (cls : LoadedClass) (outer : Value) (args : List Value)
  | invoke (receiver : Value) (name : String) (args : List Value)
  | invokeStatic (cls : LoadedClass) (name : String) (args : List Value)
  | stringify (v : Value)

namespace Request

/-- The class that a request is given. -/
def cls? : Request → Option LoadedClass
  | .instantiate c _ | .instantiateInner c _ _ | .invokeStatic c _ _ => some c
  | _ => none

/-- Changes the loader of the machine. -/
def onLoader (f : Loader → Loader) : Run Unit := modify fun m => { m with loader := f m.loader }

/-- Does what is asked; what it gives is dropped. -/
def serve (fuel : Nat) (watch : Run.Watch) : Request → Run Unit
  | .define name bytes => onLoader fun l => (l.define name bytes).2
  | .defineAll artifacts => onLoader fun l => (l.defineAll artifacts).2
  | .instantiate c args => do let _ ← Run.instantiate fuel c args watch
  | .instantiateInner c outer args => do let _ ← Run.instantiateInner fuel c outer args watch
  | .invoke v name args => do let _ ← Run.invoke fuel v name args watch
  | .invokeStatic c name args => do let _ ← Run.invokeStatic fuel c name args watch
  | .stringify v => do let _ ← Run.stringify fuel v watch

/-- How requests end that are made one after the other, nothing for one that succeeds. What a request leaves behind is
there for the next, also if it failed. -/
def outcomes (fuel : Nat) (watch : Run.Watch) : Machine → List Request → List (Option Halt)
  | _, [] => []
  | m, r :: rest =>
    match r.serve fuel watch m with
    | .ok _ m => none :: outcomes fuel watch m rest
    | .error e m => some e :: outcomes fuel watch m rest

theorem safe_onLoader {f : Loader → Loader} (hf : ∀ l : Loader, l.Sound → (f l).Sound) :
    Safe (onLoader f) fun _ => True :=
  fun m hm => ⟨⟨hf m.loader hm.loader, hm.heap, hm.links⟩, trivial⟩

variable {watch : Run.Watch} (hwatch : watch.Mild)
include hwatch

theorem safe_serve (fuel : Nat) {r : Request} (hr : ∀ c, r.cls? = some c → c.Defined) :
    Safe (r.serve fuel watch) fun _ => True := by
  cases r with
  | define name bytes => exact safe_onLoader fun l hl => Loader.kept_sound.define hl name bytes
  | defineAll artifacts => exact safe_onLoader fun l hl => Loader.kept_sound.defineAll hl artifacts
  | instantiate c args => exact .bind (.instantiate hwatch fuel (hr c rfl).sound args) fun _ _ => .pure trivial
  | instantiateInner c outer args =>
    exact .bind (.instantiateInner hwatch fuel (hr c rfl).sound outer args) fun _ _ => .pure trivial
  | invoke v name args => exact .bind (.invoke hwatch fuel v name args) fun _ _ => .pure trivial
  | invokeStatic c name args =>
    exact .bind (.invokeStatic hwatch fuel (hr c rfl).sound name args) fun _ _ => .pure trivial
  | stringify v => exact .bind (.stringify hwatch fuel v) fun _ _ => .pure trivial

theorem outcomes_valid (fuel : Nat) {m : Machine} (hm : m.Sound) {rs : List Request}
    (hrs : ∀ r ∈ rs, ∀ c, r.cls? = some c → c.Defined) {e : Halt} (he : some e ∈ outcomes fuel watch m rs) :
    e.isInvalid = false := by
  induction rs generalizing m with
  | nil => cases he
  | cons r rs ih =>
    have hrest : ∀ r' ∈ rs, ∀ c, r'.cls? = some c → c.Defined := fun r' h => hrs r' (List.mem_cons_of_mem _ h)
    have hsafe := safe_serve hwatch fuel (hrs r List.mem_cons_self) m hm
    rw [outcomes] at he
    unfold Triple at hsafe
    split at he
    · rename_i u m' heq
      rw [heq] at hsafe
      rcases List.mem_cons.1 he with h | h
      · cases h
      · exact ih hsafe.1 hrest h
    · rename_i e' m' heq
      rw [heq] at hsafe
      rcases List.mem_cons.1 he with h | h
      · cases h
        exact hsafe.2
      · exact ih hsafe.1 hrest h

omit hwatch in
/-- Whatever bytes came to the loader, no request ends because of invalid code. Nor does it with the inspector, so every
frame on the way is in order. -/
theorem never_invalid {m : Machine} (hloader : m.loader.Reachable)
    (hheap : ∀ id c, m.heap.class? id = some c → c.Defined)
    (hlinks : ∀ (name : String) (c : LoadedClass), m.links[name]? = some c → c.Defined) {rs : List Request}
    (hrs : ∀ r ∈ rs, ∀ c, r.cls? = some c → c.Defined) (fuel : Nat) :
    ∀ watch ∈ [Run.unwatched, Run.inspector], ∀ e, some e ∈ outcomes fuel watch m rs → e.isInvalid = false := by
  have hm : m.Sound :=
    ⟨hloader.sound, fun id c hc => (hheap id c hc).sound, fun name c hc => (hlinks name c hc).sound⟩
  intro watch hwatch e he
  simp only [List.mem_cons, List.not_mem_nil, or_false] at hwatch
  rcases hwatch with rfl | rfl
  · exact outcomes_valid Run.Watch.mild_unwatched fuel hm hrs he
  · exact outcomes_valid Run.Watch.mild_inspector fuel hm hrs he

end Request

/-! A class with a method that has code. -/
namespace Offset

def className : Name := .ofPath ["A"] (Eq.refl true)

/-- The class file of a class `A` with the method `static int offset(int n) { return n + 42; }`. -/
def file : ClassFile where
  constants := #[.utf8 "A", .cls 1, .utf8 "lang.Object", .cls 3, .utf8 "<init>", .utf8 "()V", .utf8 "offset", .utf8 "(I)I",
    .int 42]
  access := .pub
  thisClass := 2
  superClass := 4
  inner := []
  fields := []
  methods := [{ access := .pub ||| .static, name := 7, descriptor := 8, maxLocals := 1, code := #[
    9, 0, 0, 0, 0, 9, 22, 42] }]

theorem verify_file : file.verify = .ok () := by
  have hcs : file.constants.toList = Constants.belowRoot className ++ [.utf8 "offset", .utf8 "(I)I", .int 42] := rfl
  have hconstants : file.constants.verify = .ok () := Constants.verify_belowRoot hcs rfl
  have hheader : file.verifyHeader = .ok className := rfl
  have hmethods : file.verifyMethods = .ok () := by cbv
  simp only [ClassFile.verify, bind_eq_ok]
  exact ⟨(), hconstants, className, hheader, (), rfl, (), rfl, hmethods⟩

/-- The bytes of the class file. -/
def bytes : Bytes := file.encode.toOption.getD []

theorem encode_file : file.encode = .ok bytes := by cbv

/-- The class that is loaded from it. -/
def cls : LoadedClass := (file.load? .object).getD .object

theorem load?_file : file.load? .object = some cls := by
  have hload : (file.load? .object).isSome = true := by cbv
  obtain ⟨c, hc⟩ := Option.isSome_iff_exists.1 hload
  rw [cls, hc, Option.getD_some]

theorem define_boot : (Loader.boot.define "A" bytes).1 = .ok cls ∧
    (Loader.boot.define "A" bytes).2.resolve? "A" = some cls := by
  have hcls : (Loader.boot.define "A" bytes).1 = .ok cls :=
    Loader.define_boot encode_file rfl (by decide) verify_file rfl (Loader.contains_boot (by decide)) rfl load?_file
  exact ⟨hcls, Loader.resolve?_of_define hcls⟩

theorem defined : cls.Defined := ⟨_, .define "A" bytes .boot, "A", define_boot.2⟩

/-- What the method gives for `1`. -/
def result (watch : Run.Watch) : Option Value :=
  match Run.invokeStatic 100 cls "offset" [.int 1] watch { loader := .boot } with
  | .ok v _ => some v
  | .error .. => none

end Offset

theorem Request.never_invalid_offset :
    Offset.cls.Defined ∧ ∀ watch ∈ [Run.unwatched, Run.inspector], Offset.result watch = some (.int 43) ∧ ∀ e,
      some e ∈ outcomes 100 watch { loader := .boot } [.define "A" Offset.bytes, .define "B" [0xca, 0xfe],
        .invokeStatic Offset.cls "offset" [.int 1], .invokeStatic Offset.cls "offset" [.null],
        .instantiate Offset.cls [], .stringify (.object 0)] → e.isInvalid = false := by
  refine ⟨Offset.defined, fun watch hwatch => ⟨?_, never_invalid .boot (fun id c hc => ?_) (fun name c hc => ?_)
    (fun r hr c hc => ?_) 100 watch hwatch⟩⟩
  · revert watch
    decide +kernel
  · simp [Heap.class?, Heap.get?, Heap.empty] at hc
  · simp at hc
  · simp only [List.mem_cons, List.not_mem_nil, or_false] at hr
    rcases hr with rfl | rfl | rfl | rfl | rfl | rfl <;> cases hc
    all_goals exact Offset.defined

end ClassTree
