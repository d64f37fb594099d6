import ClassTree.Proofs.Machine.TypedHeap

/-!
# What holds at every moment of a run

`Moment.Good`: as many calls are counted as are under way, no more than the machine allows, no more runs are within each
other than are allowed, and, if the heap was typed at the start, it is typed, and so is what is handed over. Every traced
computation that begins with the calls under way counted passes good moments only, and leaves the count as it was, also if
it fails (`Traced.Ensures`). Only the run of a frame leaves the calls miscounted when it fails; the run within which it is
restores the count.

* `Request.calls_balanced`: after every request no call is counted, and on the way the count is right and bounded.
* `Request.typed_boundaries`: the heap stays typed, a method with code is entered with arguments of the types of its
  parameters, and the value of a call has the type of the method. There is one exception: a static method may get a
  receiver, and then its arguments are one slot too far.
-/

namespace ClassTree

/-! ## Good moments -/

namespace Frame

/-- The locals in which the code expects the parameters. -/
def paramLocals (f : Frame) : List Value :=
  (f.locals.toList.drop (if f.target.method.isStatic then 0 else 1)).take f.target.method.params.length

end Frame

/-- What is handed over in an event conforms to the declared types. -/
def Event.Typed (h : Heap) : Event → Prop
  | .enter f _ => List.Forall₂ h.Conforms f.paramLocals f.target.method.params
  | .leave method v => h.Conforms v method.ret ∧ (method.ret.isVoid = true → v = .null)
  | _ => True

/-- A static method with code is entered with a receiver: it stands where the code expects the first parameter, and the
arguments behind it. -/
def Event.Shifted (h : Heap) : Event → Prop
  | .enter f receiver => f.target.method.isStatic = true ∧ ∃ v args, receiver = some v ∧
      List.Forall₂ h.Conforms args f.target.method.params ∧ ∃ rest, f.locals.toList = v :: args ++ rest
  | _ => False

/-- The calls under way are counted and within the limits, and the heap is typed if `T`. -/
structure Machine.Ready (T : Prop) (limit : Nat) (calls : List Activity) (m : Machine) : Prop where
  limit : m.maxDepth = limit
  depth : m.depth = calls.length
  bound : m.depth ≤ m.maxDepth
  runs : m.nestedRuns ≤ maxNestedRuns
  typed : T → m.heap.Typed

/-- The machine is ready for the calls under way, and what is handed over has the declared types. -/
structure Moment.Good (T : Prop) (limit : Nat) (s : Moment) : Prop where
  ready : s.machine.Ready T limit s.calls
  event : T → s.event.Typed s.machine.heap ∨ s.event.Shifted s.machine.heap

theorem Machine.Ready.evolve {T : Prop} {limit : Nat} {calls : List Activity} {m m' : Machine}
    (h : m.Ready T limit calls) (hm : m.Evolves m') : m'.Ready T limit calls where
  limit := hm.limit.trans h.limit
  depth := hm.depth.trans h.depth
  bound := by rw [hm.depth, hm.limit]; exact h.bound
  runs := by rw [hm.runs]; exact h.runs
  typed ht := hm.typed (h.typed ht)

theorem Machine.Ready.of_length {T : Prop} {limit : Nat} {calls calls' : List Activity} {m : Machine}
    (h : m.Ready T limit calls) (hlength : calls'.length = calls.length) : m.Ready T limit calls' :=
  ⟨h.limit, h.depth.trans hlength.symm, h.bound, h.runs, h.typed⟩

/-- One more call may be under way if the limit is not reached. -/
theorem Machine.Ready.deeper {T : Prop} {limit : Nat} {calls : List Activity} {m : Machine} (h : m.Ready T limit calls)
    (hroom : m.depth < m.maxDepth) (a : Activity) :
    Machine.Ready T limit (a :: calls) { m with depth := m.depth + 1 } :=
  ⟨h.limit, by rw [List.length_cons, ← h.depth], hroom, h.runs, h.typed⟩

namespace Traced

variable {α β : Type} {T : Prop} {limit : Nat}

/-- From the machine `m` the traced computation passes good moments only, and ends in a value with `Q` or fails with
`E`. -/
structure Ensures (T : Prop) (limit : Nat) (x : Traced α) (m : Machine) (Q : α → Machine → Prop) (E : Machine → Prop) :
    Prop where
  outcome : Triple x.outcome m Q fun _ m' => E m'
  moments : ∀ s ∈ (x m).2, s.Good T limit

namespace Ensures

variable {m : Machine} {Q : α → Machine → Prop} {R : β → Machine → Prop} {E : Machine → Prop}

theorem pure {a : α} (h : Q a m) : Ensures T limit (Pure.pure a) m Q E :=
  ⟨h, fun _ hs => absurd hs List.not_mem_nil⟩

theorem lift {x : Run α} (h : Triple x m Q fun _ m' => E m') : Ensures T limit (Traced.lift x) m Q E :=
  ⟨h, fun _ hs => absurd hs List.not_mem_nil⟩

theorem note {calls : List Activity} {e : Event} {Q : Unit → Machine → Prop} (hgood : Moment.Good T limit ⟨m, calls, e⟩)
    (h : Q () m) : Ensures T limit (Traced.note calls e) m Q E := by
  refine ⟨h, fun s hs => ?_⟩
  rw [List.mem_singleton.1 hs]
  exact hgood

theorem bind {x : Traced α} {f : α → Traced β} (hx : Ensures T limit x m Q E)
    (hf : ∀ a m', Q a m' → Ensures T limit (f a) m' R E) : Ensures T limit (x >>= f) m R E := by
  refine ⟨?_, fun s hs => ?_⟩
  · rw [outcome_bind]
    exact Triple.bind hx.outcome fun a m' h => (hf a m' h).outcome
  · rw [Traced.bind_eq] at hs
    have houtcome := hx.outcome
    have hmoments := hx.moments
    unfold Triple Traced.outcome at houtcome
    rcases hxm : x m with ⟨a, before⟩
    rw [hxm] at hs houtcome hmoments
    cases a with
    | ok a m' =>
      rcases List.mem_append.1 hs with hs | hs
      · exact hmoments s hs
      · exact (hf a m' houtcome).moments s hs
    | error e m' => exact hmoments s hs

theorem mono {x : Traced α} {Q' : α → Machine → Prop} {E' : Machine → Prop} (hx : Ensures T limit x m Q E)
    (hQ : ∀ a m', Q a m' → Q' a m') (hE : ∀ m', E m' → E' m') : Ensures T limit x m Q' E' :=
  ⟨hx.outcome.mono hQ fun _ => hE, hx.moments⟩

end Ensures

/-- The computation passes good moments only and leaves the machine with as many calls under way, also if it fails. -/
def Steady (T : Prop) (limit : Nat) (calls : List Activity) (x : Traced α) (Q : α → Machine → Prop) : Prop :=
  ∀ m, m.Ready T limit calls → Ensures T limit x m (fun a m' => m.Evolves m' ∧ Q a m') m.Evolves

namespace Steady

variable {calls : List Activity} {Q : α → Machine → Prop} {R : β → Machine → Prop}

theorem pure {a : α} (h : ∀ m, Q a m) : Steady T limit calls (Pure.pure a) Q := fun m _ => .pure ⟨.refl m, h m⟩

/-- The rule for a computation after which the machine is ready for the same calls. -/
theorem bind {x : Traced α} {f : α → Traced β} (hx : Steady T limit calls x Q)
    (hf : ∀ a m, Q a m → m.Ready T limit calls → Ensures T limit (f a) m (fun b m' => m.Evolves m' ∧ R b m') m.Evolves) :
    Steady T limit calls (x >>= f) R := by
  intro m hm
  refine .bind (hx m hm) fun a m' h => ?_
  exact (hf a m' h.2 (hm.evolve h.1)).mono (fun _ _ h' => ⟨h.1.trans h'.1, h'.2⟩) fun _ h' => h.1.trans h'

theorem lift {x : Run α} {Q : α → Prop} (hx : Quiet x Q) : Steady T limit calls (Traced.lift x) fun a _ => Q a :=
  fun m _ => .lift (hx m)

theorem mono {x : Traced α} {Q' : α → Machine → Prop} (hx : Steady T limit calls x Q) (h : ∀ a m, Q a m → Q' a m) :
    Steady T limit calls x Q' :=
  fun m hm => (hx m hm).mono (fun a m' h' => ⟨h'.1, h a m' h'.2⟩) fun _ h' => h'

/-- What one more call does leaves the count as it was before. -/
theorem deeper {a : Activity} {x : Traced α} (hx : Steady T limit (a :: calls) x fun _ _ => True) {m : Machine}
    (hm : m.Ready T limit calls) (hroom : m.depth < m.maxDepth) :
    Ensures T limit x.deeper m (fun _ m' => m.Evolves m') m.Evolves := by
  obtain ⟨houtcome, hmoments⟩ := hx _ (hm.deeper hroom a)
  have hback : ∀ m' : Machine, Machine.Evolves { m with depth := m.depth + 1 } m' →
      m.Evolves { m' with depth := m'.depth - 1 } := by
    rintro m' ⟨⟨hruns, hlimit, htyped⟩, hdepth⟩
    exact ⟨⟨hruns, hlimit, htyped⟩, by simp [hdepth]⟩
  refine ⟨?_, hmoments⟩
  rw [outcome_deeper]
  exact Triple.deeper (houtcome.mono (fun _ m' h => hback m' h.1) fun _ m' h => hback m' h)

/-- A run within those under way leaves the count as it was before, whatever it does to it. -/
theorem nest {x : Traced α} {m inner : Machine}
    (hinner : inner = { m with depth := m.depth + 1, nestedRuns := m.nestedRuns + 1 })
    (hx : m.nestedRuns < maxNestedRuns → Ensures T limit x inner (fun _ => inner.Continues) inner.Continues) :
    Ensures T limit x.nest m (fun _ m' => m.Evolves m') m.Evolves := by
  subst hinner
  have hback : ∀ m' : Machine, Machine.Continues { m with depth := m.depth + 1, nestedRuns := m.nestedRuns + 1 } m' →
      m.Evolves { m' with depth := m.depth, nestedRuns := m'.nestedRuns - 1 } := by
    rintro m' ⟨hruns, hlimit, htyped⟩
    exact ⟨⟨by simp [hruns], hlimit, htyped⟩, rfl⟩
  by_cases hfull : m.nestedRuns ≥ maxNestedRuns
  · refine ⟨?_, fun s hs => ?_⟩
    · rw [outcome_nest]
      unfold Triple Run.nest
      rw [if_pos hfull]
      exact .refl m
    · rw [Traced.nest, if_pos hfull] at hs
      cases hs
  · obtain ⟨houtcome, hmoments⟩ := hx (Nat.lt_of_not_le hfull)
    refine ⟨?_, fun s hs => ?_⟩
    · rw [outcome_nest]
      exact Triple.nest (.refl m) (houtcome.mono (fun _ m' h => hback m' h) fun _ m' h => hback m' h)
    · rw [Traced.nest, if_neg hfull] at hs
      exact hmoments s hs

end Steady

/-! ## Calls -/

/-- Making texts is steady, whatever calls are under way. -/
def SteadyRender (T : Prop) (limit : Nat) (render : TracedRender) : Prop :=
  ∀ calls v, Steady T limit calls (render calls v) fun _ _ => True

/-- Running a frame is steady if there is room for one more call. -/
def SteadyRun (T : Prop) (limit : Nat) (run : List Activity → Frame → Traced Value) : Prop :=
  ∀ calls f m, m.Ready T limit calls → m.depth < m.maxDepth →
    Ensures T limit (run calls f) m (fun _ m' => m.Evolves m') m.Evolves

/-- There is room for the frame that a call becomes. -/
def Room : Invocation → Machine → Prop
  | .done _, _ => True
  | .enter _, m => m.depth < m.maxDepth

theorem triple_bindArgs (t : Target) (args : List Value) (m : Machine) :
    Triple (t.bindArgs args) m
      (fun args m' => m' = m ∧ m.depth < m.maxDepth ∧ List.Forall₂ m.heap.Conforms args t.method.params)
      fun _ m' => m.Evolves m' := by
  refine Triple.bind (Triple.get (Q := fun a m' => a = m ∧ m' = m) ⟨rfl, rfl⟩) fun a m' h => ?_
  obtain ⟨rfl, rfl⟩ := h
  dsimp only
  by_cases hroom : m'.depth ≥ m'.maxDepth
  · rw [if_pos hroom]
    exact Machine.Evolves.refl _
  · rw [if_neg hroom]
    split
    · exact Machine.Evolves.refl _
    · rename_i hlength
      refine Triple.ask (fun ws hws => ⟨rfl, Nat.lt_of_not_le hroom, ?_⟩) fun _ _ => .refl _
      exact Heap.conforms_coerceAll (not_ne_iff.1 hlength) hws

theorem triple_finish (method : LoadedMethod) (v : Option Value) (m : Machine) :
    Triple (Run.ask (·.finish method v)) m (fun w m' => m' = m ∧ Event.Typed m.heap (.leave method w))
      fun _ m' => m.Evolves m' := by
  refine Triple.ask (fun w hw => ⟨rfl, ?_⟩) fun _ _ => .refl _
  have hconforms := Heap.conforms_finish hw
  refine ⟨hconforms, fun hvoid => ?_⟩
  rw [show method.ret = .void by simpa [Ty.isVoid] using hvoid] at hconforms
  exact Heap.conforms_void_iff.1 hconforms

theorem steady_native {render : Value → Traced String} {calls : List Activity}
    (hrender : ∀ v, Steady T limit calls (render v) fun _ _ => True) (n : Native) (receiver : Value) (args : List Value) :
    Steady T limit calls (n.traced render receiver args) fun _ _ => True := by
  by_cases hn : n = .builderAppend
  · subst hn
    refine .bind (.lift Quiet.builder) fun id m _ hm => ?_
    refine Steady.bind (hrender _) (fun more m _ hm => ?_) m hm
    exact Steady.bind (.lift Quiet.modifyBuffer) (fun _ m _ _ => .pure ⟨.refl m, trivial⟩) m hm
  · have hlift : n.traced render receiver args = Traced.lift (n.run (fun v => (render v).outcome) receiver args) := by
      cases n <;> first | rfl | exact absurd rfl hn
    rw [hlift]
    exact .lift (Quiet.native hn)

/-- The frame of a call has its arguments where the code expects them, unless a static method has got a receiver. -/
theorem typed_or_shifted {h : Heap} {t : Target} {receiver : Option Value} {args : List Value}
    (hreceiver : t.method.isStatic = false → receiver.isSome = true)
    (hargs : List.Forall₂ h.Conforms args t.method.params) (maxLocals : UInt16) (code : Array UInt8) :
    (Event.enter { target := t, code, locals := initialLocals receiver args maxLocals } receiver).Typed h ∨
      (Event.enter { target := t, code, locals := initialLocals receiver args maxLocals } receiver).Shifted h := by
  have htake : ∀ rest, (args ++ rest).take t.method.params.length = args := by
    intro rest
    rw [← hargs.length_eq, List.take_left]
  cases hstatic : t.method.isStatic with
  | false =>
    obtain ⟨v, rfl⟩ := Option.isSome_iff_exists.1 (hreceiver hstatic)
    left
    simp only [Event.Typed, Frame.paramLocals, hstatic, initialLocals, Option.toList_some, List.cons_append, List.nil_append,
      Bool.false_eq_true, if_false, List.drop_succ_cons, List.drop_zero, htake]
    exact hargs
  | true =>
    cases receiver with
    | none =>
      left
      simp only [Event.Typed, Frame.paramLocals, hstatic, initialLocals, Option.toList_none, List.nil_append, if_true,
        List.drop_zero, htake]
      exact hargs
    | some v => exact .inr ⟨hstatic, v, args, rfl, hargs, _, by simp [initialLocals]; rfl⟩

section Calls

variable {render : TracedRender} (hrender : SteadyRender T limit render) {calls : List Activity}
include hrender

theorem steady_beginCall {t : Target} {receiver : Option Value} {args : List Value}
    (hreceiver : t.method.isStatic = false → receiver.isSome = true) :
    Steady T limit calls (beginCall render calls t receiver args) Room := by
  intro m hm
  refine .bind (.lift (triple_bindArgs t args m)) fun args m' h => ?_
  obtain ⟨rfl, hroom, hargs⟩ := h
  split
  · rename_i n _
    have hwork : Steady T limit (.host t :: calls)
        (do note (.host t :: calls) .host; n.traced (render (.host t :: calls)) (receiver.getD .null) args)
        fun _ _ => True := by
      intro m hm
      refine .bind (.note (Q := fun _ m' => m' = m) ⟨hm, fun _ => .inl trivial⟩ rfl) fun _ m' h => ?_
      subst h
      exact steady_native (hrender _) n _ args m' hm
    refine .bind (hwork.deeper hm hroom) fun v m₁ h₁ => ?_
    refine .bind (Q := fun w m' => m' = m₁ ∧ Event.Typed m₁.heap (.leave t.method w))
      (.lift ((triple_finish t.method (some v) m₁).mono (fun _ _ h => h) fun _ _ h => h₁.trans h)) fun w m' h => ?_
    obtain ⟨rfl, hw⟩ := h
    refine .bind (.note (Q := fun _ m'' => m'' = m') ⟨hm.evolve h₁, fun _ => .inl hw⟩ rfl) fun _ m'' h => ?_
    subst h
    exact .pure ⟨h₁, trivial⟩
  · refine .bind (.note (Q := fun _ m'' => m'' = m') ⟨hm, fun _ => typed_or_shifted hreceiver hargs _ _⟩ rfl)
      fun _ m'' h => ?_
    subst h
    exact .pure ⟨.refl _, hroom⟩
  · exact .lift (Machine.Evolves.refl _)

theorem steady_callWith {run : List Activity → Frame → Traced Value} (hrun : SteadyRun T limit run) {t : Target}
    {receiver : Option Value} {args : List Value} (hreceiver : t.method.isStatic = false → receiver.isSome = true) :
    Steady T limit calls (callWith render calls run t receiver args) fun _ _ => True := by
  refine .bind (steady_beginCall hrender hreceiver) fun i m hroom hm => ?_
  cases i with
  | done v => exact .pure ⟨.refl m, trivial⟩
  | enter f => exact (hrun calls f m hm hroom).mono (fun _ _ h => ⟨h, trivial⟩) fun _ h => h

/-! ## Runs -/

/-- There is room for the frame that a step hands out. -/
def RoomAfter : Control → Machine → Prop
  | .call _ _, m => m.depth < m.maxDepth
  | _, _ => True

theorem steady_meet {d : Demand} (hd : d.Proper) : Steady T limit calls (meet render calls d) RoomAfter := by
  cases d with
  | done c =>
    refine .pure fun m => ?_
    cases c with
    | call caller callee => exact hd.elim
    | next f => trivial
    | ret f v => trivial
  | call f t receiver args keep =>
    refine .bind (steady_beginCall hrender hd) fun i m hroom hm => ?_
    cases i with
    | done v => exact .pure ⟨.refl m, trivial⟩
    | enter callee => exact .pure ⟨.refl m, hroom⟩
  | join f a b =>
    refine .bind (Q := fun _ _ => True) ?_ fun _ m _ _ => .pure ⟨.refl m, trivial⟩
    refine .bind (hrender calls a) fun x m _ hm => ?_
    exact Steady.bind (hrender calls b) (fun y m _ _ => .pure ⟨.refl m, trivial⟩) m hm

theorem steady_step (f : Frame) : Steady T limit calls (step render calls f) RoomAfter := by
  refine .bind (.lift Quiet.ofExcept) fun i m _ hm => ?_
  exact Steady.bind (.lift (Quiet.demand i)) (fun d m hd hm => steady_meet hrender hd m hm) m hm

/-- The run of a frame passes good moments only. If it fails, the calls are miscounted; the run that it belongs to mends
that. -/
theorem ensures_drive {outer : List Activity} {fuel : Nat} {f : Frame} {callers : List Frame} {m : Machine}
    (hm : m.Ready T limit ((f :: callers).map .code ++ outer)) :
    Ensures T limit (drive render outer fuel f callers) m (fun _ => m.Continues) m.Continues := by
  induction fuel generalizing f callers m with
  | zero => exact .lift (Machine.Evolves.refl m).toContinues
  | succ fuel ih =>
    rw [drive]
    refine .bind (.note (Q := fun _ m' => m' = m) ⟨hm, fun _ => .inl trivial⟩ rfl) fun _ m' h => ?_
    subst h
    refine .bind ((steady_step hrender f m' hm).mono (fun _ _ h => h) fun _ h => h.toContinues) fun c m₁ h₁ => ?_
    obtain ⟨hevolves, hroom⟩ := h₁
    have hready := hm.evolve hevolves
    have hlater : ∀ {x : Traced Value} {m₂ : Machine}, m₁.Continues m₂ →
        Ensures T limit x m₂ (fun _ => m₂.Continues) m₂.Continues →
        Ensures T limit x m₂ (fun _ => m'.Continues) m'.Continues := fun h hx =>
      have hall := hevolves.toContinues.trans h
      hx.mono (fun _ _ h' => hall.trans h') fun _ h' => hall.trans h'
    cases c with
    | next g => exact hlater (Machine.Evolves.refl _).toContinues (ih (hready.of_length (by simp)))
    | call caller callee =>
      refine .bind (.lift (Triple.changeDepth
        (Q := fun _ m₂ => m₂ = { m₁ with depth := m₁.depth + 1 }) rfl)) fun _ m₂ h₂ => ?_
      subst h₂
      exact hlater ⟨rfl, rfl, id⟩ (ih ((hready.deeper hroom (.code callee)).of_length (by simp)))
    | ret g v =>
      refine .bind (.lift (Triple.changeDepth
        (Q := fun _ m₂ => m₂ = { m₁ with depth := m₁.depth - 1 }) rfl)) fun _ m₂ h₂ => ?_
      have hback : m₂.Ready T limit (callers.map .code ++ outer) := by
        subst h₂
        have hdepth := hready.depth
        have hbound := hready.bound
        simp only [List.map_cons, List.cons_append, List.length_cons] at hdepth
        exact ⟨hready.limit, by simp only [hdepth]; omega, by simp only; omega, hready.runs, hready.typed⟩
      have hcontinues : m₁.Continues m₂ := by
        subst h₂
        exact ⟨rfl, rfl, id⟩
      refine hlater hcontinues (.bind (Q := fun w m₃ => m₃ = m₂ ∧ Event.Typed m₂.heap (.leave g.target.method w))
        (.lift ((triple_finish g.target.method v m₂).mono (fun _ _ h => h) fun _ _ h => h.toContinues)) fun w m₃ h₃ => ?_)
      obtain ⟨rfl, hw⟩ := h₃
      refine .bind (.note (Q := fun _ m₄ => m₄ = m₃) ⟨hback, fun _ => .inl hw⟩ rfl) fun _ m₄ h₄ => ?_
      subst h₄
      cases callers with
      | nil => exact .pure (Machine.Evolves.refl _).toContinues
      | cons caller callers => exact ih (hback.of_length (by simp))

end Calls

theorem steady_textOf {run : List Activity → Frame → Traced Value} (hrun : SteadyRun T limit run) :
    SteadyRender T limit (textOf run) := by
  have hplain : SteadyRender T limit fun _ w => do return (← Traced.lift get).heap.render w :=
    fun _ _ => .bind (.lift Quiet.get) fun _ m _ _ => .pure ⟨.refl m, trivial⟩
  intro calls v
  cases v
  case object id =>
    refine .bind (.lift Quiet.get) fun m₀ m _ hm => ?_
    split
    · exact hplain calls _ m hm
    · refine Steady.bind (steady_callWith hplain hrun fun _ => rfl) (fun w m _ hm => ?_) m hm
      split
      · exact .pure ⟨.refl m, trivial⟩
      · exact hplain calls _ m hm
  all_goals exact hplain calls _

theorem steady_frameAt {fuel levels : Nat} : SteadyRun T limit (frameAt fuel levels) := by
  induction levels with
  | zero => exact fun _ _ m _ _ => .lift (Machine.Evolves.refl m)
  | succ levels ih =>
    intro calls f m hm hroom
    refine Steady.nest rfl fun hruns => ?_
    have hready := hm.deeper hroom (.code f)
    exact ensures_drive (steady_textOf ih) ⟨hready.limit, hready.depth, hready.bound, hruns, hready.typed⟩

theorem steady_call {fuel : Nat} {t : Target} {receiver : Option Value} {args : List Value}
    (hreceiver : t.method.isStatic = false → receiver.isSome = true) :
    Steady T limit [] (call fuel t receiver args) fun _ _ => True :=
  steady_callWith (steady_textOf steady_frameAt) steady_frameAt hreceiver

theorem steady_construct {fuel : Nat} {cls : LoadedClass} {args : List Value} :
    Steady T limit [] (construct fuel cls args) fun _ _ => True := by
  refine .bind (.lift (Quiet.failIf Quiet.alloc)) fun v m _ hm => ?_
  refine Steady.bind (.lift Quiet.constructorTarget) (fun t m _ hm => ?_) m hm
  exact Steady.bind (steady_call fun _ => rfl) (fun _ m _ _ => .pure ⟨.refl m, trivial⟩) m hm

end Traced

/-! ## Sessions -/

namespace Request

variable {T : Prop} {limit : Nat}

open Traced (Steady)

theorem steady_traced (fuel : Nat) (r : Request) : Steady T limit [] (r.traced fuel) fun _ _ => True := by
  have hdrop : ∀ {α : Type} {x : Traced α}, Steady T limit [] x (fun _ _ => True) →
      Steady T limit [] (do let _ ← x) fun _ _ => True := fun hx =>
    .bind hx fun _ m _ _ => .pure ⟨.refl m, trivial⟩
  have hdefine : ∀ f : Loader → Loader, Quiet (onLoader f) fun _ => True :=
    fun f m => ⟨⟨⟨rfl, rfl, id⟩, rfl⟩, trivial⟩
  cases r with
  | define name bytes => exact .lift (hdefine _)
  | defineAll artifacts => exact .lift (hdefine _)
  | instantiate c args =>
    refine .bind (.lift (Q := fun _ => True) ?_) fun _ m _ hm => hdrop Traced.steady_construct m hm
    split
    · exact Quiet.fail
    · exact Quiet.pure trivial
  | instantiateInner c outer args =>
    refine .bind (.lift (Q := fun _ => True) (Quiet.failIf ?_)) fun _ m _ hm => hdrop Traced.steady_construct m hm
    split
    · exact Quiet.fail
    · exact Quiet.pure trivial
  | invoke v name args =>
    refine .bind (.lift Quiet.virtualTarget) fun t m _ hm => hdrop (Traced.steady_call fun hnot => ?_) m hm
    simp [Target.receiver?, hnot]
  | invokeStatic c name args =>
    refine .bind (.lift Quiet.staticTarget) fun t m ht hm => hdrop (Traced.steady_call fun hnot => ?_) m hm
    rw [ht] at hnot
    cases hnot
  | stringify v => exact hdrop (Traced.steady_textOf Traced.steady_frameAt [] v)

/-- Whatever is asked of a machine, all moments are good, and the machine has as many calls under way as before. -/
theorem good_trace (fuel : Nat) {m : Machine} (hm : m.Ready T limit []) (rs : List Request) :
    m.Evolves (after fuel Run.unwatched m rs) ∧ ∀ s ∈ trace fuel m rs, s.Good T limit := by
  induction rs generalizing m with
  | nil => exact ⟨.refl m, fun _ hs => absurd hs List.not_mem_nil⟩
  | cons r rs ih =>
    obtain ⟨houtcome, hmoments⟩ := steady_traced fuel r m hm
    have hone : m.Evolves (after fuel Run.unwatched m [r]) ∧
        after fuel Run.unwatched m (r :: rs) = after fuel Run.unwatched (after fuel Run.unwatched m [r]) rs := by
      rw [outcome_traced] at houtcome
      unfold Triple at houtcome
      simp only [after]
      split at houtcome
      · rename_i heq
        rw [heq]
        exact ⟨houtcome.1, rfl⟩
      · rename_i heq
        rw [heq]
        exact ⟨houtcome, rfl⟩
    obtain ⟨hevolves, hrest⟩ := ih (hm.evolve hone.1)
    refine ⟨by rw [hone.2]; exact hone.1.trans hevolves, fun s hs => ?_⟩
    rcases List.mem_append.1 hs with hs | hs
    · exact hmoments s hs
    · exact hrest s hs

/-- After requests that end in whatever way no call is counted, so none of them takes room from the next; on the way as many
calls are counted as are under way, and no more than allowed, and so with the runs within each other. -/
theorem calls_balanced {m : Machine} (hdepth : m.depth = 0) (hruns : m.nestedRuns = 0) (fuel : Nat) (rs : List Request) :
    ((after fuel Run.unwatched m rs).depth = 0 ∧ (after fuel Run.unwatched m rs).nestedRuns = 0 ∧
      (after fuel Run.unwatched m rs).maxDepth = m.maxDepth) ∧
    ∀ s ∈ trace fuel m rs,
      s.machine.depth = s.calls.length ∧ s.machine.depth ≤ m.maxDepth ∧ s.machine.nestedRuns ≤ 16 := by
  have hready : m.Ready False m.maxDepth [] := ⟨rfl, hdepth, by omega, by omega, False.elim⟩
  obtain ⟨hevolves, hgood⟩ := good_trace fuel hready rs
  refine ⟨⟨hevolves.depth.trans hdepth, hevolves.runs.trans hruns, hevolves.limit⟩, fun s hs => ?_⟩
  have hmoment := (hgood s hs).ready
  exact ⟨hmoment.depth, by rw [← hmoment.limit]; exact hmoment.bound, hmoment.runs⟩

/-- A request that succeeds after two moments in the host constructor, and one that fails. -/
theorem calls_balanced_object :
    let rs : List Request := [.instantiate .object [], .invoke .null "length" []]
    (trace 100 { loader := .boot } rs).length = 2 ∧
      (after 100 Run.unwatched { loader := .boot } rs).depth = 0 ∧
      (after 100 Run.unwatched { loader := .boot } rs).nestedRuns = 0 ∧
      ∀ s ∈ trace 100 { loader := .boot } rs,
        s.machine.depth = s.calls.length ∧ s.machine.depth ≤ 256 ∧ s.machine.nestedRuns ≤ 16 := by
  intro rs
  obtain ⟨⟨hdepth, hruns, -⟩, hmoments⟩ := calls_balanced (m := { loader := .boot }) rfl rfl 100 rs
  exact ⟨rfl, hdepth, hruns, hmoments⟩

/-- In every machine that is reached from a new one the heap is typed, and so it is at every moment; what is handed over has
the declared types, unless a static method has got a receiver. -/
theorem typed_boundaries (loader : Loader) (maxDepth : Nat) (identity : Nat → Int32) (fuel : Nat) (rs : List Request) :
    (after fuel Run.unwatched { loader, maxDepth, heap := .empty identity } rs).heap.Typed ∧
    ∀ s ∈ trace fuel { loader, maxDepth, heap := .empty identity } rs, s.machine.heap.Typed ∧
      (s.event.Typed s.machine.heap ∨ s.event.Shifted s.machine.heap) := by
  have hready : Machine.Ready True maxDepth [] { loader, maxDepth, heap := .empty identity } :=
    ⟨rfl, rfl, Nat.zero_le _, Nat.zero_le _, fun _ => Heap.typed_empty identity⟩
  obtain ⟨hevolves, hgood⟩ := good_trace fuel hready rs
  exact ⟨hevolves.typed (Heap.typed_empty identity), fun s hs => ⟨(hgood s hs).ready.typed trivial, (hgood s hs).event trivial⟩⟩

end Request

end ClassTree
