import ClassTree.Proofs.Machine.Links

/-!
# Traces of runs

A traced computation does what a computation of the machine does and also lists the moments of interest, each with the state
of the machine and the calls under way: before an instruction and in a host method, when a method with code is entered, and
when a call hands its value to the caller. The calls under way count the frames of all runs within each other, and the host
methods that these runs are within.

* What a step does is cut in two: what an instruction comes to by itself (`Frame.demand`), and the call or the texts that it
  asks for then (`Frame.exec_eq`).
* `Request.outcome_traced`: the traced request does to the machine what the request does.
-/

namespace ClassTree

/-! ## Moments -/

/-- A call under way. -/
inductive Activity where
  | code (f : Frame)
  | host (t : Target)

inductive Event where
  /-- The first of the calls under way does its next instruction. -/
  | step
  /-- The first of the calls under way is a host method that does its work. -/
  | host
  /-- A method with code is entered with a frame, and was given a receiver or none. -/
  | enter (f : Frame) (receiver : Option Value)
  /-- A call of a method is completed and hands a value to its caller. -/
  | leave (method : LoadedMethod) (v : Value)

structure Moment where
  machine : Machine
  /-- The calls under way, the innermost first. -/
  calls : List Activity
  event : Event

/-! ## Traced computations -/

/-- A computation of the machine with the moments on its way. -/
def Traced (α : Type) : Type := Machine → EStateM.Result Halt Machine α × List Moment

namespace Traced

variable {α β : Type}

instance : Monad Traced where
  pure a := fun m => (.ok a m, [])
  bind x f := fun m =>
    match x m with
    | (.ok a m, before) => ((f a m).1, before ++ (f a m).2)
    | (.error e m, before) => (.error e m, before)

/-- A computation without any moment of interest. -/
def lift (x : Run α) : Traced α := fun m => (x m, [])

/-- The moment that is now. -/
def note (calls : List Activity) (e : Event) : Traced Unit := fun m => (.ok () m, [⟨m, calls, e⟩])

/-- What the computation does to the machine. -/
def outcome (x : Traced α) : Run α := fun m => (x m).1

/-- Does a traced computation one call deeper. -/
def deeper (x : Traced α) : Traced α := fun m => (Run.deeper x.outcome m, (x { m with depth := m.depth + 1 }).2)

/-- Does a traced run within those under way. -/
def nest (x : Traced α) : Traced α := fun m =>
  (Run.nest x.outcome m,
    if m.nestedRuns ≥ maxNestedRuns then []
    else (x { m with depth := m.depth + 1, nestedRuns := m.nestedRuns + 1 }).2)

theorem bind_eq (x : Traced α) (f : α → Traced β) (m : Machine) :
    (x >>= f) m = match x m with
      | (.ok a m, before) => ((f a m).1, before ++ (f a m).2)
      | (.error e m, before) => (.error e m, before) := rfl

@[simp] theorem outcome_pure (a : α) : (pure a : Traced α).outcome = pure a := rfl

@[simp] theorem outcome_lift (x : Run α) : (lift x).outcome = x := rfl

@[simp] theorem outcome_note (calls : List Activity) (e : Event) : (note calls e).outcome = pure () := rfl

@[simp] theorem outcome_deeper (x : Traced α) : x.deeper.outcome = Run.deeper x.outcome := rfl

@[simp] theorem outcome_nest (x : Traced α) : x.nest.outcome = Run.nest x.outcome := rfl

@[simp] theorem outcome_bind (x : Traced α) (f : α → Traced β) :
    (x >>= f).outcome = x.outcome >>= fun a => (f a).outcome := by
  funext m
  change ((x >>= f) m).1 = EStateM.bind x.outcome (fun a => (f a).outcome) m
  rw [bind_eq]
  rcases hx : x m with ⟨_ | _, before⟩ <;> simp [EStateM.bind, outcome, hx]

end Traced

open Traced (lift note)

/-- How a value becomes a text while calls are under way. -/
abbrev TracedRender := List Activity → Value → Traced String

/-! ## Calls -/

/-- The arguments of a call, converted to the types of the parameters, if there may be one more call. -/
def Target.bindArgs (t : Target) (args : List Value) : Run (List Value) := do
  let m ← get
  if m.depth ≥ m.maxDepth then Run.fail (.stackOverflow m.maxDepth)
  if args.length ≠ t.method.params.length then Run.fail (noSuchMethod t.cls t.method.name)
  Run.ask (·.coerceAll args t.method.params)

theorem beginCall_eq (render : Value → Run String) (t : Target) (receiver : Option Value) (args : List Value) :
    beginCall render t receiver args = (do
      let args ← t.bindArgs args
      match t.method.body with
      | .native n =>
        let v ← Run.deeper (n.run render (receiver.getD .null) args)
        return .done (← Run.ask (·.finish t.method (some v)))
      | .code maxLocals code => return .enter { target := t, code, locals := initialLocals receiver args maxLocals }
      | .abstract => Run.fail (noSuchMethod t.cls t.method.text)) := by
  unfold beginCall Target.bindArgs
  simp only [bind_assoc]
  refine bind_congr fun m => ?_
  split
  · rfl
  · split
    · rfl
    · rfl

/-- Does what a host method does. Only a text buffer asks for a text. -/
def Native.traced (render : Value → Traced String) (n : Native) (receiver : Value) (args : List Value) : Traced Value :=
  match n with
  | .builderAppend => do
    let id ← lift (builder receiver "append")
    let more ← render (args.headD .null)
    lift (Run.onHeap (·.modifyBuffer id (· ++ more)))
    return receiver
  | n => lift (n.run (fun v => (render v).outcome) receiver args)

theorem Native.outcome_traced (render : Value → Traced String) (n : Native) (receiver : Value) (args : List Value) :
    (n.traced render receiver args).outcome = n.run (fun v => (render v).outcome) receiver args := by
  cases n
  case builderAppend => simp [traced, run]
  all_goals rfl

namespace Traced

variable (render : TracedRender) (calls : List Activity)

/-- Begins a call. -/
def beginCall (t : Target) (receiver : Option Value) (args : List Value) : Traced Invocation := do
  let args ← lift (t.bindArgs args)
  match t.method.body with
  | .native n =>
    let v ← deeper do
      note (.host t :: calls) .host
      n.traced (render (.host t :: calls)) (receiver.getD .null) args
    let v ← lift (Run.ask (·.finish t.method (some v)))
    note calls (.leave t.method v)
    return .done v
  | .code maxLocals code =>
    let f : Frame := { target := t, code, locals := initialLocals receiver args maxLocals }
    note calls (.enter f receiver)
    return .enter f
  | .abstract => lift (Run.fail (noSuchMethod t.cls t.method.text))

/-- Calls a method and waits for its result. -/
def callWith (run : List Activity → Frame → Traced Value) (t : Target) (receiver : Option Value) (args : List Value) :
    Traced Value := do
  match ← beginCall render calls t receiver args with
  | .done v => return v
  | .enter f => run calls f

/-- The text of a value. -/
def textOf (run : List Activity → Frame → Traced Value) : TracedRender := fun calls v => do
  match v with
  | .object id =>
    match ((← lift get).heap.class? id).bind (·.findMethod? "toString" toStringDescriptor) with
    | none => return (← lift get).heap.render v
    | some t =>
      match ← callWith (fun _ v => do return (← lift get).heap.render v) calls run t (some v) [] with
      | .str s => return s
      | other => return (← lift get).heap.render other
  | v => return (← lift get).heap.render v

end Traced

/-! ## Steps -/

/-- What an instruction comes to before a method is called or a text is made. -/
inductive Demand where
  | done (c : Control)
  /-- A method is to be called. -/
  | call (f : Frame) (t : Target) (receiver : Option Value) (args : List Value) (keep : Bool)
  /-- The texts of two values are to be joined. -/
  | join (f : Frame) (a b : Value)

namespace Frame

/-- The call that a reference means. -/
def demandInvoke (f : Frame) (kind : CallKind) (ref : UInt16) : Run Demand := do
  let r ← f.methodRef ref
  let sig ← f.signature r
  let owner ← Run.link f.target.cls r.cls
  let keep := !sig.ret.isVoid
  match kind with
  | .virtual =>
    let (args, f) ← f.popArgs sig.params.length
    let (receiver, f) ← f.pop
    let cls ← Run.classOf receiver r.name
    let t ← Run.need (cls.findMethod? r.name r.descriptor) fun _ => noSuchMethod cls r.name
    return .call f t (some receiver) args keep
  | .special =>
    let m ← Run.need (owner.ownMethod? r.name r.descriptor) fun _ => noSuchMethod owner r.name
    let (args, f) ← f.popArgs sig.params.length
    let (receiver, f) ← f.pop
    if receiver.isNull then Run.fail (.nullReference r.name)
    return .call f ⟨owner, m⟩ (some receiver) args keep
  | .static =>
    let t ← Run.need ((owner.findMethod? r.name r.descriptor).filter (·.method.isStatic)) fun _ =>
      noSuchMethod owner r.name
    let (args, f) ← f.popArgs sig.params.length
    return .call f t none args keep

def demandDynamic (f : Frame) (name : UInt16) (argc : UInt8) : Run Demand := do
  let name ← f.name name 1
  let (args, f) ← f.popArgs argc.toNat
  let (receiver, f) ← f.pop
  let t ← virtualTarget receiver name args
  return .call f t (t.receiver? receiver) args true

def demandSpecialDyn (f : Frame) (cls : UInt16) (argc : UInt8) : Run Demand := do
  let name ← f.className cls 1
  let owner ← Run.link f.target.cls name
  let (args, f) ← f.popArgs argc.toNat
  let (receiver, f) ← f.pop
  if receiver.isNull then Run.fail (.nullReference (name ++ "." ++ constructorName))
  let t ← constructorTarget owner args
  return .call (f.push .null) t (some receiver) args false

def demandStaticDyn (f : Frame) (cls method : UInt16) (argc : UInt8) : Run Demand := do
  let name ← f.className cls 3
  let method ← f.name method 1
  let owner ← Run.link f.target.cls name
  let (args, f) ← f.popArgs argc.toNat
  let t ← staticTarget owner method args
  return .call f t none args true

/-- The join or the number that an arithmetic operator makes of two values. -/
def demandArith (f : Frame) (op : ArithOp) : Run Demand :=
  match f.stack with
  | b :: a :: stack =>
    match op, a, b with
    | .add, .str _, _ | .add, _, .str _ => pure (.join { f with stack } a b)
    | _, _, _ => do return .done (.next { f with stack := (← Run.ask (·.arith op a b)) :: stack })
  | _ => Run.fail f.underflow

def demandConcat (f : Frame) : Run Demand :=
  match f.stack with
  | b :: a :: stack => pure (.join { f with stack } a b)
  | _ => Run.fail f.underflow

/-- What an instruction comes to by itself. -/
def demand (f : Frame) (render : Value → Run String) : Instr → Run Demand
  | .invoke kind ref => f.demandInvoke kind ref
  | .invokeDynamic name argc => f.demandDynamic name argc
  | .invokeSpecialDyn cls argc => f.demandSpecialDyn cls argc
  | .invokeStaticDyn cls method argc => f.demandStaticDyn cls method argc
  | .arith op => f.demandArith op
  | .concat => f.demandConcat
  | i => do return .done (← f.exec render i)

end Frame

/-- Does what an instruction asks for. -/
def Demand.meet (render : Value → Run String) : Demand → Run Control
  | .done c => pure c
  | .call f t receiver args keep => f.dispatch render t receiver args keep
  | .join f a b => do return .next (f.push (← concat render a b))

theorem Demand.done_bind_meet (render : Value → Run String) (x : Run Control) :
    (do return Demand.done (← x)) >>= Demand.meet render = x := by
  simp only [bind_assoc, Demand.meet, pure_bind, bind_pure]

/-- An instruction first comes to what it asks for, and then that is done. -/
theorem Frame.exec_eq (f : Frame) (render : Value → Run String) (i : Instr) :
    f.exec render i = f.demand render i >>= Demand.meet render := by
  cases i
  case invoke kind ref =>
    change f.invoke render kind ref = f.demandInvoke kind ref >>= Demand.meet render
    simp only [Frame.invoke, demandInvoke, bind_assoc]
    refine bind_congr fun r => bind_congr fun sig => bind_congr fun owner => ?_
    cases kind with
    | virtual => simp [bind_assoc, Demand.meet]
    | special =>
      simp only [bind_assoc]
      refine bind_congr fun m => bind_congr fun x => bind_congr fun y => ?_
      split <;> rfl
    | static => simp [bind_assoc, Demand.meet]
  case invokeDynamic name argc =>
    change f.invokeDynamic render name argc = f.demandDynamic name argc >>= Demand.meet render
    simp [Frame.invokeDynamic, demandDynamic, bind_assoc, Demand.meet]
  case invokeSpecialDyn cls argc =>
    change f.invokeSpecialDyn render cls argc = f.demandSpecialDyn cls argc >>= Demand.meet render
    simp only [Frame.invokeSpecialDyn, demandSpecialDyn, bind_assoc]
    refine bind_congr fun name => bind_congr fun owner => bind_congr fun x => bind_congr fun y => ?_
    split
    · rfl
    · simp [Demand.meet]
  case invokeStaticDyn cls method argc =>
    change f.invokeStaticDyn render cls method argc = f.demandStaticDyn cls method argc >>= Demand.meet render
    simp [Frame.invokeStaticDyn, demandStaticDyn, bind_assoc, Demand.meet]
  case arith op =>
    change f.binary (arithmetic render op) = f.demandArith op >>= Demand.meet render
    rw [binary, demandArith]
    rcases f.stack with _ | ⟨b, _ | ⟨a, stack⟩⟩
    · rfl
    · rfl
    · dsimp only
      -- The three cases of the operator are those of what it comes to.
      fun_cases arithmetic render op a b
      · rfl
      · split <;> first | rfl | simp_all
      · split <;> simp_all [Demand.meet]
  case concat =>
    change f.binary (concat render) = f.demandConcat >>= Demand.meet render
    rw [binary, demandConcat]
    rcases f.stack with _ | ⟨b, _ | ⟨a, stack⟩⟩ <;> rfl
  all_goals exact (Demand.done_bind_meet render _).symm

namespace Traced

section Steps

variable (render : TracedRender) (calls : List Activity)

/-- Calls a method from a frame. -/
def dispatch (f : Frame) (t : Target) (receiver : Option Value) (args : List Value) (keep : Bool) : Traced Control := do
  match ← beginCall render calls t receiver args with
  | .done v => return .next (if keep then f.push v else f)
  | .enter callee => return .call f { callee with keepResult := keep }

/-- The texts of two values, one behind the other. -/
def concat (a b : Value) : Traced Value := do
  let x ← render calls a
  let y ← render calls b
  return .str (x ++ y)

/-- Does what an instruction asks for. -/
def meet : Demand → Traced Control
  | .done c => pure c
  | .call f t receiver args keep => dispatch render calls f t receiver args keep
  | .join f a b => do return .next (f.push (← concat render calls a b))

/-- Does the next instruction. -/
def step (f : Frame) : Traced Control := do
  let i ← lift (Run.ofExcept f.fetch)
  let d ← lift ({ f with ip := f.ip + i.size }.demand (fun v => (render calls v).outcome) i)
  meet render calls d

end Steps

/-! ## Runs -/

/-- Runs a frame and all that it calls to the end, within the calls `outer`. -/
def drive (render : TracedRender) (outer : List Activity) : Nat → Frame → List Frame → Traced Value
  | 0, _, _ => lift (throw .outOfFuel)
  | fuel + 1, f, callers => do
    let calls := (f :: callers).map .code ++ outer
    note calls .step
    match ← step render calls f with
    | .next f => drive render outer fuel f callers
    | .call caller callee =>
      lift (Run.changeDepth (· + 1))
      drive render outer fuel callee (caller :: callers)
    | .ret f v =>
      lift (Run.changeDepth (· - 1))
      let v ← lift (Run.ask (·.finish f.target.method v))
      note (callers.map .code ++ outer) (.leave f.target.method v)
      match callers with
      | [] => return v
      | caller :: callers => drive render outer fuel (if f.keepResult then caller.push v else caller) callers

/-- Runs a frame, with at most `levels` runs within each other. -/
def frameAt (fuel : Nat) : Nat → List Activity → Frame → Traced Value
  | 0, _, _ => lift (throw .outOfFuel)
  | levels + 1, outer, f => nest (drive (textOf (frameAt fuel levels)) outer fuel f [])

def frame (fuel : Nat) : List Activity → Frame → Traced Value := frameAt fuel (maxNestedRuns + 1)

/-- The text of a value. -/
def stringify (fuel : Nat) (v : Value) : Traced String := textOf (frame fuel) [] v

/-- Calls a method. -/
def call (fuel : Nat) (t : Target) (receiver : Option Value) (args : List Value) : Traced Value :=
  callWith (textOf (frame fuel)) [] (frame fuel) t receiver args

/-- Makes an instance of a class by the constructor that fits arguments best. -/
def construct (fuel : Nat) (cls : LoadedClass) (args : List Value) : Traced Value := do
  let v ← lift do
    if cls.isAbstract then Run.fail (.abstractInstantiation cls.name.text)
    Run.alloc cls
  let t ← lift (constructorTarget cls args)
  let _ ← call fuel t (some v) args
  return v

end Traced

namespace Request

/-- Does what is asked, with the moments on the way. -/
def traced (fuel : Nat) : Request → Traced Unit
  | .define name bytes => lift (onLoader fun l => (l.define name bytes).2)
  | .defineAll artifacts => lift (onLoader fun l => (l.defineAll artifacts).2)
  | .instantiate c args => do
    lift do if c.isInner then Run.fail (.outerInstanceRequired c.name.text)
    let _ ← Traced.construct fuel c args
  | .instantiateInner c outer args => do
    lift do
      if !c.isInner then Run.fail (.typeMismatch "non-static inner class" c.name.text)
      if outer.isNull then Run.fail (.nullReference outerField)
    let _ ← Traced.construct fuel c (outer :: args)
  | .invoke v name args => do
    let t ← lift (virtualTarget v name args)
    let _ ← Traced.call fuel t (t.receiver? v) args
  | .invokeStatic c name args => do
    let t ← lift (staticTarget c name args)
    let _ ← Traced.call fuel t none args
  | .stringify v => do let _ ← Traced.stringify fuel v

/-- The moments of requests that are made one after the other. -/
def trace (fuel : Nat) : Machine → List Request → List Moment
  | _, [] => []
  | m, r :: rest => (r.traced fuel m).2 ++ trace fuel (after fuel Run.unwatched m [r]) rest

end Request

/-! ## Traces do not change runs -/

namespace Traced

section Outcome

variable {render : TracedRender} {plain : Value → Run String}
  (hrender : ∀ calls v, (render calls v).outcome = plain v) (calls : List Activity)
include hrender

theorem outcome_beginCall (t : Target) (receiver : Option Value) (args : List Value) :
    (beginCall render calls t receiver args).outcome = ClassTree.beginCall plain t receiver args := by
  rw [beginCall_eq, beginCall, outcome_bind]
  refine bind_congr fun args => ?_
  split
  · simp [Native.outcome_traced, hrender]
  · rfl
  · rfl

theorem outcome_callWith {run : List Activity → Frame → Traced Value} {plainRun : Frame → Run Value}
    (hrun : ∀ calls f, (run calls f).outcome = plainRun f) (t : Target) (receiver : Option Value) (args : List Value) :
    (callWith render calls run t receiver args).outcome = ClassTree.callWith plain plainRun t receiver args := by
  rw [callWith, outcome_bind, outcome_beginCall hrender]
  refine bind_congr fun i => ?_
  cases i with
  | done v => rfl
  | enter f => exact hrun calls f

theorem outcome_meet (d : Demand) : (meet render calls d).outcome = d.meet plain := by
  cases d with
  | done c => rfl
  | call f t receiver args keep =>
    rw [meet, Demand.meet, dispatch, Frame.dispatch, outcome_bind, outcome_beginCall hrender]
    refine bind_congr fun i => ?_
    cases i <;> rfl
  | join f a b => simp [meet, Demand.meet, concat, ClassTree.concat, hrender]

theorem outcome_step (f : Frame) : (step render calls f).outcome = f.step plain := by
  have hplain : (fun v => (render calls v).outcome) = plain := funext (hrender calls)
  simp only [step, outcome_bind, outcome_lift, outcome_meet hrender, hplain, Frame.step, Frame.exec_eq]

theorem outcome_drive (outer : List Activity) (fuel : Nat) (f : Frame) (callers : List Frame) :
    (drive render outer fuel f callers).outcome = Run.drive Run.unwatched plain fuel f callers := by
  induction fuel generalizing f callers with
  | zero => rfl
  | succ fuel ih =>
    rw [drive, Run.drive, outcome_bind, outcome_note, outcome_bind, outcome_step hrender]
    refine bind_congr fun _ => bind_congr fun c => ?_
    cases c with
    | next g => exact ih g callers
    | call caller callee => simp only [outcome_bind, outcome_lift, ih]
    | ret g v =>
      simp only [outcome_bind, outcome_lift, outcome_note, pure_bind]
      refine bind_congr fun _ => bind_congr fun w => ?_
      cases callers with
      | nil => rfl
      | cons caller callers => exact ih _ callers

end Outcome

theorem outcome_textOf {run : List Activity → Frame → Traced Value} {plainRun : Frame → Run Value}
    (hrun : ∀ calls f, (run calls f).outcome = plainRun f) (calls : List Activity) (v : Value) :
    (textOf run calls v).outcome = ClassTree.textOf plainRun v := by
  cases v
  case object id =>
    simp only [textOf, ClassTree.textOf, outcome_bind, outcome_lift]
    refine bind_congr fun m => ?_
    cases (m.heap.class? id).bind (·.findMethod? "toString" toStringDescriptor) with
    | none => rfl
    | some t =>
      have hplain : ∀ (_ : List Activity) (w : Value), (do return (← lift get).heap.render w : Traced String).outcome =
          (do return (← get).heap.render w : Run String) := fun _ _ => rfl
      simp only [outcome_bind]
      rw [outcome_callWith hplain calls hrun]
      refine bind_congr fun w => ?_
      cases w <;> rfl
  all_goals rfl

theorem outcome_frameAt (fuel levels : Nat) (outer : List Activity) (f : Frame) :
    (frameAt fuel levels outer f).outcome = Run.frameAt Run.unwatched fuel levels f := by
  induction levels generalizing outer f with
  | zero => rfl
  | succ levels ih => rw [frameAt, outcome_nest, outcome_drive (outcome_textOf ih), Run.frameAt]

theorem outcome_stringify (fuel : Nat) (v : Value) :
    (stringify fuel v).outcome = Run.stringify fuel v := outcome_textOf (outcome_frameAt fuel _) [] v

theorem outcome_call (fuel : Nat) (t : Target) (receiver : Option Value) (args : List Value) :
    (call fuel t receiver args).outcome = Run.call fuel t receiver args :=
  outcome_callWith (outcome_textOf (outcome_frameAt fuel _)) [] (outcome_frameAt fuel _) t receiver args

theorem outcome_construct (fuel : Nat) (cls : LoadedClass) (args : List Value) :
    (construct fuel cls args).outcome = Run.construct fuel cls args := by
  simp only [construct, Run.construct, outcome_bind, outcome_lift, outcome_call, outcome_pure]
  split <;> rfl

end Traced

namespace Request

/-- The traced request does to the machine what the request does. -/
theorem outcome_traced (fuel : Nat) (r : Request) : (r.traced fuel).outcome = r.serve fuel Run.unwatched := by
  cases r with
  | define name bytes => rfl
  | defineAll artifacts => rfl
  | instantiate c args =>
    simp only [traced, serve, Run.instantiate, Traced.outcome_bind, Traced.outcome_lift, Traced.outcome_construct]
    split <;> rfl
  | instantiateInner c outer args =>
    simp only [traced, serve, Run.instantiateInner, Traced.outcome_bind, Traced.outcome_lift, Traced.outcome_construct]
    split
    · rfl
    · split <;> rfl
  | invoke v name args =>
    simp only [traced, serve, Run.invoke, Traced.outcome_bind, Traced.outcome_lift, Traced.outcome_call, bind_assoc]
    rfl
  | invokeStatic c name args =>
    simp only [traced, serve, Run.invokeStatic, Traced.outcome_bind, Traced.outcome_lift, Traced.outcome_call, bind_assoc]
    rfl
  | stringify v =>
    simp only [traced, serve, Traced.outcome_bind, Traced.outcome_stringify]
    rfl

end Request

end ClassTree
