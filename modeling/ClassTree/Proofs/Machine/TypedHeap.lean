import ClassTree.Proofs.Machine.Trace

/-!
# Heaps keep their types

`Heap.Typed`: every object has one value for each slot of its class, and each value conforms to the type of its slot, that
is, a conversion to it leaves the value as it is. What a conversion gives conforms (`Heap.conforms_coerce`), and so do
defaults. Since values are converted before they are stored, no computation spoils a heap: `Quiet x Q` says that the
computation `x` keeps a typed heap typed and the calls counted as they were. What an instruction comes to by itself
(`Quiet.demand`) and what a host method does (`Quiet.native`) is quiet.
-/

namespace ClassTree

namespace Heap

variable {h k : Heap} {v w : Value} {t : Ty}

/-- A conversion to the type leaves the value as it is. -/
def Conforms (h : Heap) (v : Value) (t : Ty) : Prop := h.coerce v t = .ok v

/-- Every object has one value for each slot of its class, and it conforms to the type of the slot. -/
def Typed (h : Heap) : Prop :=
  ∀ id o, h.get? id = some o → o.fields.size = o.cls.layout.length ∧
    ∀ (i : Nat) (s : FieldSlot) (v : Value), o.cls.layout[i]? = some s → o.fields[i]? = some v → h.Conforms v s.ty

/-! ## Conversions -/

theorem conforms_coerce (hw : h.coerce v t = .ok w) : h.Conforms w t := by
  have hcheck : ∀ {e : RuntimeError}, h.coerce v t = (if (h.referenceCost v t).isSome then .ok v else .error e) →
      h.Conforms w t := by
    intro e heq
    rw [hw] at heq
    split at heq
    · cases heq
      exact hw
    · cases heq
  cases v <;> cases t <;> first | exact hcheck rfl | (cases hw; rfl)

theorem conforms_default (h : Heap) (t : Ty) : h.Conforms (.defaultOf t) t := by
  cases t <;> rfl

/-- Only null conforms to `void`. -/
theorem conforms_void_iff : h.Conforms v .void ↔ v = .null := by
  have hnull : h.coerce v .void = .ok .null := by cases v <;> rfl
  rw [Conforms, hnull, Except.ok.injEq, eq_comm]

theorem referenceCost_mono (hkept : ∀ id c, h.class? id = some c → k.class? id = some c)
    (hcost : (h.referenceCost v t).isSome = true) : (k.referenceCost v t).isSome = true := by
  cases t
  case ref name =>
    cases v
    case object id =>
      obtain ⟨n, hn⟩ := Option.isSome_iff_exists.1 hcost
      obtain ⟨c, hc, hdist⟩ := Option.bind_eq_some_iff.1 hn
      simp [referenceCost, hkept id c hc, hdist]
    all_goals exact hcost
  all_goals exact hcost

/-- Values conform also when there are more objects. -/
theorem Conforms.mono (hv : h.Conforms v t) (hkept : ∀ id c, h.class? id = some c → k.class? id = some c) :
    k.Conforms v t := by
  have hcheck : ∀ {e e' : RuntimeError}, h.coerce v t = (if (h.referenceCost v t).isSome then .ok v else .error e) →
      k.coerce v t = (if (k.referenceCost v t).isSome then .ok v else .error e') → k.Conforms v t := by
    intro e e' hh hk
    rw [show h.coerce v t = .ok v from hv] at hh
    split at hh
    · rename_i hcost
      rw [Conforms, hk, if_pos (referenceCost_mono hkept hcost)]
    · cases hh
  cases v <;> cases t <;> first | exact hcheck rfl rfl | exact hv

theorem conforms_coerceAll {vs ws : List Value} {ts : List Ty} (hlength : vs.length = ts.length)
    (hw : h.coerceAll vs ts = .ok ws) : List.Forall₂ h.Conforms ws ts := by
  induction vs generalizing ts ws with
  | nil =>
    obtain rfl : ts = [] := List.length_eq_zero_iff.1 hlength.symm
    cases hw
    exact .nil
  | cons v vs ih =>
    cases ts with
    | nil => cases hlength
    | cons t ts =>
      simp only [coerceAll, bind_eq_ok, pure_eq_ok] at hw
      obtain ⟨w, hv, ws, hvs, rfl⟩ := hw
      exact .cons (conforms_coerce hv) (ih (Nat.succ.inj hlength) hvs)

/-- What a method hands to its caller conforms to its type. -/
theorem conforms_finish {m : LoadedMethod} {v : Option Value} (hw : h.finish m v = .ok w) : h.Conforms w m.ret := by
  by_cases hvoid : m.ret = .void
  · have hnull : w = .null := by cases v <;> simpa [finish, hvoid, Ty.isVoid, eq_comm] using hw
    rw [hvoid]
    exact conforms_void_iff.2 hnull
  · cases v with
    | some v =>
      simp only [finish, Ty.isVoid, hvoid, decide_false, Bool.false_eq_true, if_false] at hw
      exact conforms_coerce hw
    | none =>
      simp only [finish, Ty.isVoid, hvoid, decide_false, Bool.false_eq_true, if_false, Except.ok.injEq] at hw
      rw [← hw]
      exact conforms_default h m.ret

/-! ## Changes of the heap -/

theorem typed_empty (identity : Nat → Int32) : (Heap.empty identity).Typed := by
  intro id o ho
  simp [empty, get?] at ho

theorem Typed.alloc (hh : h.Typed) (cls : LoadedClass) : (h.alloc cls).2.Typed := by
  have hkept : ∀ id c, h.class? id = some c → (h.alloc cls).2.class? id = some c := by
    intro id c hc
    have hne : id ≠ h.objects.size := by
      rintro rfl
      simp [class?, get?] at hc
    rw [class?_alloc, if_neg hne, hc]
  intro id o ho
  simp only [Heap.alloc, get?, Array.getElem?_push] at ho
  split at ho
  · cases ho
    refine ⟨by simp, fun i s v hs hv => ?_⟩
    simp only [List.getElem?_toArray, List.getElem?_map, hs, Option.map_some, Option.some.injEq] at hv
    rw [← hv]
    exact conforms_default _ _
  · obtain ⟨hsize, hfields⟩ := hh id o ho
    exact ⟨hsize, fun i s v hs hv => (hfields i s v hs hv).mono hkept⟩

/-- A change of one object that keeps its class keeps the types if the fields of the object keep theirs. -/
theorem Typed.modify (hh : h.Typed) {f : Object → Object} {i : Nat} (hcls : ∀ o, (f o).cls = o.cls)
    (hsize : ∀ o, (f o).fields.size = o.fields.size)
    (hf : ∀ o, h.get? i = some o → ∀ (j : Nat) (s : FieldSlot) (v : Value), o.cls.layout[j]? = some s →
      (f o).fields[j]? = some v → h.Conforms v s.ty) :
    Heap.Typed { h with objects := h.objects.modify i f } := by
  have hkept : ∀ id c, h.class? id = some c → Heap.class? { h with objects := h.objects.modify i f } id = some c := by
    intro id c hc
    rw [class?_modify hcls, hc]
  intro id o ho
  simp only [get?, Array.getElem?_modify] at ho
  split at ho
  · rename_i heq
    subst heq
    obtain ⟨o', ho', rfl⟩ := Option.map_eq_some_iff.1 ho
    obtain ⟨hsize', -⟩ := hh i o' ho'
    rw [hcls, hsize]
    exact ⟨hsize', fun j s v hs hv => (hf o' ho' j s v hs hv).mono hkept⟩
  · obtain ⟨hsize', hfields⟩ := hh id o ho
    exact ⟨hsize', fun j s v hs hv => (hfields j s v hs hv).mono hkept⟩

theorem Typed.modifyBuffer (hh : h.Typed) (id : Nat) (f : String → String) : (h.modifyBuffer id f).Typed :=
  hh.modify (fun _ => rfl) (fun _ => rfl) fun o ho => (hh id o ho).2

/-- A value that conforms to the type of a slot may be stored there. -/
theorem Typed.setField (hh : h.Typed) {id slot : Nat} {c : LoadedClass} {s : FieldSlot} (hc : h.class? id = some c)
    (hs : c.layout[slot]? = some s) (hv : h.Conforms v s.ty) : (h.setField id slot v).Typed := by
  refine hh.modify (fun _ => rfl) (fun _ => by simp) fun o ho j s' w hs' hw => ?_
  obtain rfl : o.cls = c := by
    rw [class?, ho] at hc
    exact Option.some.inj hc
  rw [Array.getElem?_setIfInBounds] at hw
  split at hw
  · rename_i heq
    subst heq
    obtain rfl : s = s' := Option.some.inj (hs.symm.trans hs')
    split at hw
    · cases hw
      exact hv
    · cases hw
  · exact (hh id o ho).2 j s' w hs' hw

end Heap

/-! ## Quiet computations -/

/-- The second machine comes from the first in the same run: a typed heap stays typed. -/
structure Machine.Continues (m m' : Machine) : Prop where
  runs : m'.nestedRuns = m.nestedRuns
  limit : m'.maxDepth = m.maxDepth
  typed : m.heap.Typed → m'.heap.Typed

/-- The second machine comes from the first, with as many calls under way. -/
structure Machine.Evolves (m m' : Machine) : Prop extends m.Continues m' where
  depth : m'.depth = m.depth

theorem Machine.Continues.trans {m m' m'' : Machine} (h : m.Continues m') (h' : m'.Continues m'') : m.Continues m'' :=
  ⟨h'.runs.trans h.runs, h'.limit.trans h.limit, fun hm => h'.typed (h.typed hm)⟩

theorem Machine.Evolves.refl (m : Machine) : m.Evolves m := ⟨⟨rfl, rfl, id⟩, rfl⟩

theorem Machine.Evolves.trans {m m' m'' : Machine} (h : m.Evolves m') (h' : m'.Evolves m'') : m.Evolves m'' :=
  ⟨h.toContinues.trans h'.toContinues, h'.depth.trans h.depth⟩

/-- The computation keeps a typed heap typed and the calls counted as they were, and ends in a value with `Q`. -/
def Quiet {α : Type} (x : Run α) (Q : α → Prop) : Prop :=
  ∀ m, Triple x m (fun a m' => m.Evolves m' ∧ Q a) fun _ m' => m.Evolves m'

/-- The control does not hand out the frame of a call. -/
def Control.Own : Control → Prop
  | .call _ _ => False
  | _ => True

/-- What an instruction comes to by itself does not hand out a frame, and only a static method is called without a
receiver. -/
def Demand.Proper : Demand → Prop
  | .done c => c.Own
  | .call _ t receiver _ _ => t.method.isStatic = false → receiver.isSome = true
  | .join _ _ _ => True

namespace Quiet

variable {α β : Type} {Q : α → Prop} {R : β → Prop}

theorem pure {a : α} (h : Q a) : Quiet (Pure.pure a) Q := fun m => ⟨.refl m, h⟩

theorem fail {e : RuntimeError} : Quiet (Run.fail e : Run α) Q := fun m => .refl m

theorem get : Quiet MonadState.get fun _ => True := fun m => ⟨.refl m, trivial⟩

theorem bind {x : Run α} {f : α → Run β} (hx : Quiet x Q) (hf : ∀ a, Q a → Quiet (f a) R) : Quiet (x >>= f) R := by
  refine fun m => Triple.bind ((hx m).mono (fun _ _ h => h) fun _ _ h => h) fun a m' h => ?_
  exact (hf a h.2 m').mono (fun _ _ h' => ⟨h.1.trans h'.1, h'.2⟩) fun _ _ h' => h.1.trans h'

theorem mono {x : Run α} {Q' : α → Prop} (hx : Quiet x Q) (h : ∀ a, Q a → Q' a) : Quiet x Q' :=
  fun m => (hx m).mono (fun a _ hq => ⟨hq.1, h a hq.2⟩) fun _ _ he => he

/-- The rule for a computation that fails first of all under a condition. -/
theorem failIf {c : Prop} [Decidable c] {e : RuntimeError} {k : PUnit → Run β} (hk : Quiet (k ⟨⟩) R) :
    Quiet (if c then Run.fail e >>= k else k ⟨⟩) R := by
  split
  · exact bind (Q := fun _ => True) fail fun _ _ => hk
  · exact hk

theorem need {o : Option α} {e : Unit → RuntimeError} (h : ∀ a, o = some a → Q a) : Quiet (Run.need o e) Q := by
  cases o with
  | some a => exact pure (h a rfl)
  | none => exact fail

theorem ofExcept {x : Except RuntimeError α} : Quiet (Run.ofExcept x) fun _ => True := by
  cases x with
  | ok a => exact pure trivial
  | error e => exact fail

theorem ask {f : Heap → Except RuntimeError α} : Quiet (Run.ask f) fun _ => True := bind get fun _ _ => ofExcept

theorem mismatch (expected : String) (v : Value) : Quiet (Run.ask fun h => .error (h.mismatch expected v) : Run α) Q :=
  bind get fun _ _ => fail

theorem operand {f : Frame} {o : Option α} {back : Nat} {reason : String} :
    Quiet (f.operand o back reason) fun _ => True := by
  cases o with
  | some a => exact pure trivial
  | none => exact fail

theorem pop {f : Frame} : Quiet f.pop fun _ => True := by
  unfold Frame.pop
  split
  · exact pure trivial
  · exact fail

theorem popArgs {f : Frame} {n : Nat} : Quiet (f.popArgs n) fun _ => True := by
  unfold Frame.popArgs
  split
  · exact pure trivial
  · exact fail

theorem onHeap {f : Heap → Heap} (hf : ∀ h : Heap, h.Typed → (f h).Typed) : Quiet (Run.onHeap f) fun _ => True :=
  fun m => ⟨⟨⟨rfl, rfl, hf m.heap⟩, rfl⟩, trivial⟩

theorem alloc {cls : LoadedClass} : Quiet (Run.alloc cls) fun _ => True :=
  fun _ => Triple.alloc ⟨⟨⟨rfl, rfl, fun hm => hm.alloc cls⟩, rfl⟩, trivial⟩

/-! ## Lookups -/

theorem resolve {source name : String} : Quiet (Run.resolve source name) fun _ => True := by
  refine bind get fun m _ => ?_
  split
  · exact pure trivial
  · refine bind (need (Q := fun _ => True) fun _ _ => trivial) fun c _ => ?_
    have hkeep : Quiet (Run.keep name c) fun _ => True := fun m => ⟨⟨⟨rfl, rfl, id⟩, rfl⟩, trivial⟩
    exact bind hkeep fun _ _ => pure trivial

theorem link {source : LoadedClass} {name : String} : Quiet (Run.link source name) fun _ => True := resolve

theorem classOf {v : Value} {member : String} : Quiet (Run.classOf v member) fun _ => True := by
  cases v
  case object id => exact bind get fun _ _ => need fun _ _ => trivial
  case str s => exact resolve
  case null => exact fail
  all_goals exact mismatch "object" _

theorem virtualTarget {receiver : Value} {name : String} {args : List Value} :
    Quiet (ClassTree.virtualTarget receiver name args) fun _ => True :=
  bind classOf fun _ _ => bind get fun _ _ => need fun _ _ => trivial

theorem staticTarget {cls : LoadedClass} {name : String} {args : List Value} :
    Quiet (ClassTree.staticTarget cls name args) fun t => t.method.isStatic = true :=
  bind get fun _ _ => need fun _ ht => (List.mem_filter.1 (Heap.mem_of_select? ht)).2

theorem constructorTarget {cls : LoadedClass} {args : List Value} :
    Quiet (ClassTree.constructorTarget cls args) fun _ => True := bind get fun _ _ => need fun _ _ => trivial

/-! ## Fields -/

theorem objectOf {v : Value} {member : String} : Quiet (ClassTree.objectOf v member) fun id => v = .object id := by
  cases v
  case object id => exact pure rfl
  case null => exact fail
  all_goals exact mismatch "object" _

theorem readField {slot? : LoadedClass → Option Nat} {v : Value} {name : String} :
    Quiet (ClassTree.readField slot? v name) fun _ => True :=
  bind objectOf fun _ _ => bind classOf fun _ _ => bind (need (Q := fun _ => True) fun _ _ => trivial) fun _ _ =>
    bind get fun _ _ => need fun _ _ => trivial

/-- A value is stored as the type of its slot has it. -/
theorem writeField {slot? : LoadedClass → Option Nat} {v : Value} {name : String} {new : Value} :
    Quiet (ClassTree.writeField slot? v name new) fun _ => True := by
  refine bind objectOf fun id hv => ?_
  subst hv
  -- From here to the store the machine is the same.
  intro m
  have hcls : Triple (Run.classOf (.object id) name) m (fun c m' => m' = m ∧ m.heap.class? id = some c)
      fun _ m' => m.Evolves m' :=
    Triple.bind (Triple.get (Q := fun a m' => a = m ∧ m' = m) ⟨rfl, rfl⟩) fun a m' h => by
      obtain ⟨rfl, rfl⟩ := h
      exact Triple.need (fun c hc => ⟨rfl, hc⟩) fun _ => .refl _
  refine Triple.bind hcls fun cls m' h => ?_
  obtain ⟨rfl, hcls⟩ := h
  refine Triple.bind (Q := fun _ m'' => m'' = m') (Triple.need (fun _ _ => rfl) fun _ => .refl _) fun slot m'' h => ?_
  subst h
  refine Triple.bind (Q := fun s m' => m' = m'' ∧ cls.layout[slot]? = some s)
    (Triple.need (fun _ hs => ⟨rfl, hs⟩) fun _ => .refl _) fun s m' h => ?_
  obtain ⟨rfl, hs⟩ := h
  refine Triple.bind (Q := fun w m'' => m'' = m' ∧ m'.heap.coerce new s.ty = .ok w)
    (Triple.ask (fun _ hw => ⟨rfl, hw⟩) fun _ _ => .refl _) fun w m'' h => ?_
  obtain ⟨rfl, hw⟩ := h
  refine Triple.bind (Triple.get (Q := fun a m' => a = m'' ∧ m' = m'') ⟨rfl, rfl⟩) fun a m' h => ?_
  obtain ⟨rfl, rfl⟩ := h
  split
  · exact ⟨⟨⟨rfl, rfl, fun hm => hm.setField hcls hs (Heap.conforms_coerce hw)⟩, rfl⟩, trivial⟩
  · exact .refl _

theorem getField {f : Frame} {slot? : LoadedClass → Option Nat} {name : String} :
    Quiet (f.getField slot? name) Control.Own :=
  bind pop fun _ _ => bind readField fun _ _ => pure trivial

theorem putField {f : Frame} {slot? : LoadedClass → Option Nat} {name : String} :
    Quiet (f.putField slot? name) Control.Own :=
  bind pop fun _ _ => bind pop fun _ _ => bind writeField fun _ _ => pure trivial

/-! ## Host methods -/

theorem text {v : Value} {member : String} : Quiet (Native.text v member) fun _ => True := by
  cases v
  case str s => exact pure trivial
  case null => exact fail
  all_goals exact mismatch Name.string.text _

theorem builder {v : Value} {member : String} : Quiet (Native.builder v member) fun _ => True := by
  cases v
  case null => exact fail
  case object id =>
    refine bind get fun _ _ => ?_
    split
    · exact pure trivial
    · exact ask
  all_goals exact mismatch Name.stringBuilder.text _

theorem hash {v : Value} : Quiet (Native.hash v) fun _ => True := by
  cases v
  case null => exact fail
  case object id => exact bind get fun _ _ => pure trivial
  all_goals exact pure trivial

theorem modifyBuffer {id : Nat} {f : String → String} : Quiet (Run.onHeap (·.modifyBuffer id f)) fun _ => True :=
  onHeap fun _ hh => hh.modifyBuffer id f

/-- A host method is quiet by itself, unless it asks for a text. -/
theorem native {render : Value → Run String} {n : Native} (hn : n ≠ .builderAppend) {receiver : Value}
    {args : List Value} : Quiet (n.run render receiver args) fun _ => True := by
  cases n with
  | init => exact pure trivial
  | objectToString => exact bind get fun _ _ => pure trivial
  | objectHashCode => exact hash
  | objectEquals => exact pure trivial
  | stringLength => exact bind text fun _ _ => pure trivial
  | stringIsEmpty => exact bind text fun _ _ => pure trivial
  | stringConcat => exact bind text fun _ _ => bind text fun _ _ => pure trivial
  | stringToString => exact bind text fun _ _ => pure trivial
  | builderInit => exact bind builder fun _ _ => bind text fun _ _ => bind modifyBuffer fun _ _ => pure trivial
  | builderAppend => exact absurd rfl hn
  | builderLength =>
    exact bind builder fun _ _ => bind (Q := fun _ => True) (bind get fun _ _ => pure trivial) fun _ _ => pure trivial
  | builderToString =>
    exact bind builder fun _ _ => bind (Q := fun _ => True) (bind get fun _ _ => pure trivial) fun _ _ => pure trivial

/-! ## Instructions -/

theorem unary {f : Frame} {op : Heap → Value → Except RuntimeError Value} : Quiet (f.unary op) Control.Own := by
  unfold Frame.unary
  split
  · exact bind ask fun _ _ => pure trivial
  · exact fail

theorem demandInvoke {f : Frame} {kind : CallKind} {ref : UInt16} :
    Quiet (f.demandInvoke kind ref) Demand.Proper := by
  refine bind operand fun r _ => bind operand fun sig _ => bind link fun owner _ => ?_
  cases kind with
  | virtual =>
    exact bind popArgs fun _ _ => bind pop fun _ _ => bind classOf fun _ _ =>
      bind (need (Q := fun _ => True) fun _ _ => trivial) fun _ _ => pure fun _ => rfl
  | special =>
    exact bind (need (Q := fun _ => True) fun _ _ => trivial) fun _ _ => bind popArgs fun _ _ => bind pop fun _ _ =>
      failIf (pure fun _ => rfl)
  | static =>
    refine bind (need (Q := fun t => t.method.isStatic = true) fun t ht => (Option.filter_eq_some_iff.1 ht).2)
      fun t ht => bind popArgs fun _ _ => pure fun hnot => ?_
    rw [ht] at hnot
    cases hnot

theorem demandDynamic {f : Frame} {name : UInt16} {argc : UInt8} :
    Quiet (f.demandDynamic name argc) Demand.Proper := by
  refine bind operand fun _ _ => bind popArgs fun _ _ => bind pop fun _ _ => bind virtualTarget fun t _ =>
    pure fun hnot => ?_
  simp [Target.receiver?, hnot]

theorem demandSpecialDyn {f : Frame} {cls : UInt16} {argc : UInt8} :
    Quiet (f.demandSpecialDyn cls argc) Demand.Proper :=
  bind operand fun _ _ => bind link fun _ _ => bind popArgs fun _ _ => bind pop fun _ _ =>
    failIf (bind constructorTarget fun _ _ => pure fun _ => rfl)

theorem demandStaticDyn {f : Frame} {cls method : UInt16} {argc : UInt8} :
    Quiet (f.demandStaticDyn cls method argc) Demand.Proper := by
  refine bind operand fun _ _ => bind operand fun _ _ => bind link fun _ _ => bind popArgs fun _ _ =>
    bind staticTarget fun t ht => pure fun hnot => ?_
  rw [ht] at hnot
  cases hnot

theorem demandArith {f : Frame} {op : ArithOp} : Quiet (f.demandArith op) Demand.Proper := by
  unfold Frame.demandArith
  split
  · split
    · exact pure trivial
    · exact pure trivial
    · exact bind ask fun _ _ => pure trivial
  · exact fail

theorem demandConcat {f : Frame} : Quiet f.demandConcat Demand.Proper := by
  unfold Frame.demandConcat
  split
  · exact pure trivial
  · exact fail

/-- An instruction that neither calls a method nor makes a text is quiet. -/
theorem exec_done {f : Frame} {render : Value → Run String} {i : Instr} (h : Quiet (f.exec render i) Control.Own) :
    Quiet (do return .done (← f.exec render i)) Demand.Proper := bind h fun _ hc => pure hc

/-- What an instruction comes to by itself is quiet. -/
theorem demand {f : Frame} {render : Value → Run String} (i : Instr) : Quiet (f.demand render i) Demand.Proper := by
  cases i with
  | invoke kind ref => exact demandInvoke
  | invokeDynamic name argc => exact demandDynamic
  | invokeSpecialDyn cls argc => exact demandSpecialDyn
  | invokeStaticDyn cls method argc => exact demandStaticDyn
  | arith op => exact demandArith
  | concat => exact demandConcat
  | ldc k => exact exec_done (bind ofExcept fun _ _ => pure trivial)
  | push k => exact exec_done (pure trivial)
  | pop => exact exec_done (bind pop fun _ _ => pure trivial)
  | dup =>
    refine exec_done ?_
    rw [Frame.exec]
    split
    · exact pure trivial
    · exact fail
  | dupX1 =>
    refine exec_done ?_
    rw [Frame.exec]
    split
    · exact pure trivial
    · exact fail
  | load slot =>
    refine exec_done ?_
    rw [Frame.exec]
    split
    · exact pure trivial
    · exact fail
  | store slot =>
    refine exec_done ?_
    rw [Frame.exec]
    split
    · split
      · exact pure trivial
      · exact fail
    · exact fail
  | field access ref =>
    refine exec_done (bind operand fun _ _ => bind link fun _ _ => ?_)
    cases access with
    | get => exact getField
    | put => exact putField
  | fieldDyn access name =>
    refine exec_done (bind operand fun _ _ => ?_)
    cases access with
    | get => exact getField
    | put => exact putField
  | new cls =>
    exact exec_done (bind operand fun _ _ => bind link fun _ _ => failIf (bind alloc fun _ _ => pure trivial))
  | neg => exact exec_done unary
  | widen w => exact exec_done unary
  | compare op =>
    refine exec_done ?_
    rw [Frame.exec, Frame.binary]
    split
    · exact bind ask fun _ _ => pure trivial
    · exact fail
  | not => exact exec_done unary
  | jump distance => exact exec_done (pure trivial)
  | jumpIfFalse distance =>
    refine exec_done (bind pop fun _ _ => bind ask fun b _ => ?_)
    cases b <;> exact pure trivial
  | loop distance =>
    refine exec_done ?_
    rw [Frame.exec]
    split
    · exact pure trivial
    · exact fail
  | ret => exact exec_done (bind pop fun _ _ => pure trivial)
  | retVoid => exact exec_done (pure trivial)

end Quiet

end ClassTree
