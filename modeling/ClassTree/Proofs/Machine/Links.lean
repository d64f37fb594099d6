import ClassTree.Proofs.Loader.Namespace
import ClassTree.Proofs.Machine.VerifiedRun

/-!
# What every run keeps

Computations of the machine change the heap, count calls and keep the classes that they find; no instruction and no host
method does more. So a property of machines that these changes keep (`Machine.Stable`) is kept by every request, whatever
code it runs (`Keeps.serve`).

`Request.nameSpace_invariant`: in all that happens to a loader and to a machine over it, the name space stays well formed, no
name is bound anew, and the classes that the machine keeps are those that the loader has under their names.
-/

namespace ClassTree

/-- The property does not depend on the heap nor on the calls under way, and allows to keep a class that the loader has. -/
structure Machine.Stable (I : Machine → Prop) : Prop where
  heap : ∀ (m : Machine) (h : Heap), I m → I { m with heap := h }
  depth : ∀ (m : Machine) (d : Nat), I m → I { m with depth := d }
  nestedRuns : ∀ (m : Machine) (n : Nat), I m → I { m with nestedRuns := n }
  links : ∀ (m : Machine) (name : String) (c : LoadedClass), I m → m.loader.resolve? name = some c →
    I { m with links := m.links.insert name c }

/-- The computation keeps the property, also if it fails. -/
def Keeps {α : Type} (I : Machine → Prop) (x : Run α) : Prop :=
  ∀ m, I m → Triple x m (fun _ m => I m) fun _ m => I m

namespace Keeps

variable {α β : Type} {I : Machine → Prop}

theorem pure {a : α} : Keeps I (Pure.pure a) := fun _ hm => hm

theorem throw {e : Halt} : Keeps I (MonadExcept.throw e : Run α) := fun _ hm => hm

theorem fail {e : RuntimeError} : Keeps I (Run.fail e : Run α) := throw

theorem get : Keeps I MonadState.get := fun _ hm => hm

theorem bind {x : Run α} {f : α → Run β} (hx : Keeps I x) (hf : ∀ a, Keeps I (f a)) : Keeps I (x >>= f) :=
  fun m hm => Triple.bind (hx m hm) fun a m' hm' => hf a m' hm'

/-- The rule for a computation that fails first of all under a condition. -/
theorem failIf {c : Prop} [Decidable c] {e : RuntimeError} {k : PUnit → Run β} (hk : Keeps I (k ⟨⟩)) :
    Keeps I (if c then Run.fail e >>= k else k ⟨⟩) := by
  split
  · exact bind fail fun _ => hk
  · exact hk

theorem need {o : Option α} {e : Unit → RuntimeError} : Keeps I (Run.need o e) := by
  cases o with
  | some a => exact pure
  | none => exact fail

theorem ofExcept {x : Except RuntimeError α} : Keeps I (Run.ofExcept x) := by
  cases x with
  | ok a => exact pure
  | error e => exact fail

theorem ask {f : Heap → Except RuntimeError α} : Keeps I (Run.ask f) := bind get fun _ => ofExcept

theorem mismatch (expected : String) (v : Value) :
    Keeps I (Run.ask fun h => .error (h.mismatch expected v) : Run α) := ask

theorem operand {f : Frame} {o : Option α} {back : Nat} {reason : String} : Keeps I (f.operand o back reason) := by
  cases o with
  | some a => exact pure
  | none => exact fail

theorem pop {f : Frame} : Keeps I f.pop := by
  unfold Frame.pop
  split
  · exact pure
  · exact fail

theorem popArgs {f : Frame} {n : Nat} : Keeps I (f.popArgs n) := by
  unfold Frame.popArgs
  split
  · exact pure
  · exact fail

variable (hI : Machine.Stable I)
include hI

theorem onHeap {f : Heap → Heap} : Keeps I (Run.onHeap f) := fun m hm => hI.heap m (f m.heap) hm

theorem changeDepth {f : Nat → Nat} : Keeps I (Run.changeDepth f) := fun m hm => hI.depth m (f m.depth) hm

theorem alloc {cls : LoadedClass} : Keeps I (Run.alloc cls) :=
  fun m hm => Triple.alloc (hI.heap m (m.heap.alloc cls).2 hm)

theorem deeper {x : Run α} (hx : Keeps I x) : Keeps I (Run.deeper x) := fun m hm =>
  Triple.deeper <| (hx _ (hI.depth m _ hm)).mono (fun _ m' hm' => hI.depth m' _ hm') fun _ m' hm' => hI.depth m' _ hm'

theorem nest {x : Run α} (hx : Keeps I x) : Keeps I (Run.nest x) := by
  intro m hm
  have hback : ∀ m', I m' → I { m' with depth := m.depth, nestedRuns := m'.nestedRuns - 1 } :=
    fun m' hm' => hI.depth _ m.depth (hI.nestedRuns m' (m'.nestedRuns - 1) hm')
  refine Triple.nest hm (Triple.mono (hx _ ?_) (fun _ m' hm' => hback m' hm') fun _ m' hm' => hback m' hm')
  exact hI.depth _ (m.depth + 1) (hI.nestedRuns m (m.nestedRuns + 1) hm)

/-! ## Lookups -/

theorem resolve {source name : String} : Keeps I (Run.resolve source name) := by
  intro m hm
  refine Triple.bind (Triple.get (Q := fun a m' => a = m ∧ m' = m) ⟨rfl, rfl⟩) fun a m' h => ?_
  obtain ⟨rfl, rfl⟩ := h
  split
  · exact hm
  · refine Triple.bind (Q := fun c m' => I m' ∧ m'.loader.resolve? name = some c)
      (Triple.need (fun c hc => ⟨hm, hc⟩) fun _ => hm) fun c m' h => ?_
    exact Triple.bind (Triple.keep (Q := fun _ m' => I m') (hI.links m' name c h.1 h.2)) fun _ _ h => h

theorem link {source : LoadedClass} {name : String} : Keeps I (Run.link source name) := resolve hI

theorem classOf {v : Value} {member : String} : Keeps I (Run.classOf v member) := by
  cases v
  case object id => exact bind get fun _ => need
  case str s => exact resolve hI
  case null => exact fail
  all_goals exact mismatch "object" _

theorem virtualTarget {receiver : Value} {name : String} {args : List Value} :
    Keeps I (ClassTree.virtualTarget receiver name args) :=
  bind (classOf hI) fun _ => bind get fun _ => need

omit hI in
theorem staticTarget {cls : LoadedClass} {name : String} {args : List Value} :
    Keeps I (ClassTree.staticTarget cls name args) := bind get fun _ => need

omit hI in
theorem constructorTarget {cls : LoadedClass} {args : List Value} : Keeps I (ClassTree.constructorTarget cls args) :=
  bind get fun _ => need

/-! ## Fields -/

omit hI in
theorem objectOf {v : Value} {member : String} : Keeps I (ClassTree.objectOf v member) := by
  cases v
  case object id => exact pure
  case null => exact fail
  all_goals exact mismatch "object" _

theorem readField {slot? : LoadedClass → Option Nat} {v : Value} {name : String} :
    Keeps I (ClassTree.readField slot? v name) :=
  bind objectOf fun _ => bind (classOf hI) fun _ => bind need fun _ => bind get fun _ => need

theorem writeField {slot? : LoadedClass → Option Nat} {v : Value} {name : String} {new : Value} :
    Keeps I (ClassTree.writeField slot? v name new) := by
  refine bind objectOf fun _ => bind (classOf hI) fun _ => bind need fun _ => bind need fun _ => bind ask fun _ => ?_
  refine bind get fun _ => ?_
  split
  · exact onHeap hI
  · exact fail

theorem getField {f : Frame} {slot? : LoadedClass → Option Nat} {name : String} : Keeps I (f.getField slot? name) :=
  bind pop fun _ => bind (readField hI) fun _ => pure

theorem putField {f : Frame} {slot? : LoadedClass → Option Nat} {name : String} : Keeps I (f.putField slot? name) :=
  bind pop fun _ => bind pop fun _ => bind (writeField hI) fun _ => pure

/-! ## Host methods -/

omit hI in
theorem text {v : Value} {member : String} : Keeps I (Native.text v member) := by
  cases v
  case str s => exact pure
  case null => exact fail
  all_goals exact mismatch Name.string.text _

omit hI in
theorem builder {v : Value} {member : String} : Keeps I (Native.builder v member) := by
  cases v
  case null => exact fail
  case object id =>
    refine bind get fun _ => ?_
    split
    · exact pure
    · exact ask
  all_goals exact mismatch Name.stringBuilder.text _

omit hI in
theorem hash {v : Value} : Keeps I (Native.hash v) := by
  cases v
  case null => exact fail
  case object id => exact bind get fun _ => pure
  all_goals exact pure

variable {render : Value → Run String} (hrender : ∀ v, Keeps I (render v))
include hrender

theorem native (n : Native) (receiver : Value) (args : List Value) : Keeps I (n.run render receiver args) := by
  cases n with
  | init => exact pure
  | objectToString => exact bind get fun _ => pure
  | objectHashCode => exact hash
  | objectEquals => exact pure
  | stringLength => exact bind text fun _ => pure
  | stringIsEmpty => exact bind text fun _ => pure
  | stringConcat => exact bind text fun _ => bind text fun _ => pure
  | stringToString => exact bind text fun _ => pure
  | builderInit => exact bind builder fun _ => bind text fun _ => bind (onHeap hI) fun _ => pure
  | builderAppend => exact bind builder fun _ => bind (hrender _) fun _ => bind (onHeap hI) fun _ => pure
  | builderLength => exact bind builder fun _ => bind (bind get fun _ => pure) fun _ => pure
  | builderToString => exact bind builder fun _ => bind (bind get fun _ => pure) fun _ => pure

/-! ## Calls -/

theorem beginCall {t : Target} {receiver : Option Value} {args : List Value} :
    Keeps I (ClassTree.beginCall render t receiver args) := by
  refine bind get fun _ => failIf (failIf (bind ask fun _ => ?_))
  split
  · exact bind (deeper hI (native hI hrender _ _ _)) fun _ => bind ask fun _ => pure
  · exact pure
  · exact fail

theorem dispatch {f : Frame} {t : Target} {receiver : Option Value} {args : List Value} {keep : Bool} :
    Keeps I (f.dispatch render t receiver args keep) := by
  refine bind (beginCall hI hrender) fun i => ?_
  cases i with
  | done v => exact pure
  | enter callee => exact pure

theorem invoke {f : Frame} {kind : CallKind} {ref : UInt16} : Keeps I (f.invoke render kind ref) := by
  refine bind operand fun _ => bind operand fun _ => bind (link hI) fun _ => ?_
  cases kind with
  | virtual =>
    exact bind popArgs fun _ => bind pop fun _ => bind (classOf hI) fun _ => bind need fun _ => dispatch hI hrender
  | special => exact bind need fun _ => bind popArgs fun _ => bind pop fun _ => failIf (dispatch hI hrender)
  | static => exact bind need fun _ => bind popArgs fun _ => dispatch hI hrender

theorem invokeDynamic {f : Frame} {name : UInt16} {argc : UInt8} : Keeps I (f.invokeDynamic render name argc) :=
  bind operand fun _ => bind popArgs fun _ => bind pop fun _ => bind (virtualTarget hI) fun _ => dispatch hI hrender

theorem invokeSpecialDyn {f : Frame} {cls : UInt16} {argc : UInt8} : Keeps I (f.invokeSpecialDyn render cls argc) :=
  bind operand fun _ => bind (link hI) fun _ => bind popArgs fun _ => bind pop fun _ =>
    failIf (bind constructorTarget fun _ => dispatch hI hrender)

theorem invokeStaticDyn {f : Frame} {cls method : UInt16} {argc : UInt8} :
    Keeps I (f.invokeStaticDyn render cls method argc) :=
  bind operand fun _ => bind operand fun _ => bind (link hI) fun _ => bind popArgs fun _ =>
    bind staticTarget fun _ => dispatch hI hrender

/-! ## Instructions -/

omit hI in
theorem concat {a b : Value} : Keeps I (ClassTree.concat render a b) :=
  bind (hrender a) fun _ => bind (hrender b) fun _ => pure

omit hI in
theorem arithmetic {op : ArithOp} {a b : Value} : Keeps I (ClassTree.arithmetic render op a b) := by
  unfold ClassTree.arithmetic
  split
  · exact concat hrender
  · exact concat hrender
  · exact ask

omit hI hrender in
theorem unary {f : Frame} {op : Heap → Value → Except RuntimeError Value} : Keeps I (f.unary op) := by
  unfold Frame.unary
  split
  · exact bind ask fun _ => pure
  · exact fail

omit hI hrender in
theorem binary {f : Frame} {op : Value → Value → Run Value} (hop : ∀ a b, Keeps I (op a b)) : Keeps I (f.binary op) := by
  unfold Frame.binary
  split
  · exact bind (hop _ _) fun _ => pure
  · exact fail

theorem exec {f : Frame} (i : Instr) : Keeps I (f.exec render i) := by
  cases i with
  | ldc k => exact bind ofExcept fun _ => pure
  | push k => exact pure
  | pop => exact bind pop fun _ => pure
  | dup =>
    rw [Frame.exec]
    split
    · exact pure
    · exact fail
  | dupX1 =>
    rw [Frame.exec]
    split
    · exact pure
    · exact fail
  | load slot =>
    rw [Frame.exec]
    split
    · exact pure
    · exact fail
  | store slot =>
    rw [Frame.exec]
    split
    · split
      · exact pure
      · exact fail
    · exact fail
  | field access ref =>
    refine bind operand fun _ => bind (link hI) fun _ => ?_
    cases access with
    | get => exact getField hI
    | put => exact putField hI
  | fieldDyn access name =>
    refine bind operand fun _ => ?_
    cases access with
    | get => exact getField hI
    | put => exact putField hI
  | new cls =>
    exact bind operand fun _ => bind (link hI) fun _ => failIf (bind (alloc hI) fun _ => pure)
  | invoke kind ref => exact invoke hI hrender
  | invokeDynamic name argc => exact invokeDynamic hI hrender
  | invokeSpecialDyn cls argc => exact invokeSpecialDyn hI hrender
  | invokeStaticDyn cls method argc => exact invokeStaticDyn hI hrender
  | arith op => exact binary fun _ _ => arithmetic hrender
  | neg => exact unary
  | concat => exact binary fun _ _ => concat hrender
  | widen w => exact unary
  | compare op => exact binary fun _ _ => ask
  | not => exact unary
  | jump distance => exact pure
  | jumpIfFalse distance =>
    refine bind pop fun _ => bind ask fun b => ?_
    cases b <;> exact pure
  | loop distance =>
    rw [Frame.exec]
    split
    · exact pure
    · exact fail
  | ret => exact bind pop fun _ => pure
  | retVoid => exact pure

theorem step {f : Frame} : Keeps I (f.step render) := bind ofExcept fun i => exec hI hrender i

/-! ## Runs -/

variable {watch : Run.Watch} (hwatch : ∀ f callers, Keeps I (watch f callers))
include hwatch

theorem drive {fuel : Nat} {f : Frame} {callers : List Frame} : Keeps I (Run.drive watch render fuel f callers) := by
  induction fuel generalizing f callers with
  | zero => exact throw
  | succ fuel ih =>
    rw [Run.drive]
    refine bind (hwatch f callers) fun _ => bind (step hI hrender) fun c => ?_
    cases c with
    | next g => exact ih
    | call caller callee => exact bind (changeDepth hI) fun _ => ih
    | ret g v =>
      refine bind (changeDepth hI) fun _ => bind ask fun w => ?_
      cases callers with
      | nil => exact pure
      | cons caller callers => exact ih

omit hrender hwatch in
theorem callWith (hrender : ∀ v, Keeps I (render v)) {run : Frame → Run Value} (hrun : ∀ f, Keeps I (run f)) {t : Target}
    {receiver : Option Value} {args : List Value} : Keeps I (ClassTree.callWith render run t receiver args) := by
  refine bind (beginCall hI hrender) fun i => ?_
  cases i with
  | done v => exact pure
  | enter f => exact hrun f

omit hrender hwatch in
theorem textOf {run : Frame → Run Value} (hrun : ∀ f, Keeps I (run f)) (v : Value) :
    Keeps I (ClassTree.textOf run v) := by
  cases v
  case object id =>
    refine bind get fun _ => ?_
    split
    · exact bind get fun _ => pure
    · refine bind (callWith hI (fun _ => bind get fun _ => pure) hrun) fun w => ?_
      split
      · exact pure
      · exact bind get fun _ => pure
  all_goals exact bind get fun _ => pure

omit hrender in
theorem frameAt {fuel levels : Nat} (f : Frame) : Keeps I (Run.frameAt watch fuel levels f) := by
  induction levels generalizing f with
  | zero => exact throw
  | succ levels ih => exact nest hI (drive hI (textOf hI ih) hwatch)

omit hrender in
theorem stringify {fuel : Nat} (v : Value) : Keeps I (Run.stringify fuel v watch) := textOf hI (frameAt hI hwatch) v

omit hrender in
theorem call {fuel : Nat} {t : Target} {receiver : Option Value} {args : List Value} :
    Keeps I (Run.call fuel t receiver args watch) := callWith hI (stringify hI hwatch) (frameAt hI hwatch)

omit hrender in
theorem construct {fuel : Nat} {cls : LoadedClass} {args : List Value} :
    Keeps I (Run.construct fuel cls args watch) := by
  unfold Run.construct
  exact failIf (bind (alloc hI) fun _ => bind constructorTarget fun _ => bind (call hI hwatch) fun _ => pure)

omit hrender in
theorem instantiate {fuel : Nat} {cls : LoadedClass} {args : List Value} :
    Keeps I (Run.instantiate fuel cls args watch) := by
  unfold Run.instantiate
  exact failIf (construct hI hwatch)

omit hrender in
theorem instantiateInner {fuel : Nat} {cls : LoadedClass} {outer : Value} {args : List Value} :
    Keeps I (Run.instantiateInner fuel cls outer args watch) := by
  unfold Run.instantiateInner
  exact failIf (failIf (construct hI hwatch))

omit hrender in
/-- A request keeps a property that runs and definitions keep. -/
theorem serve (hgrow : ∀ (m : Machine) (l : Loader), I m → m.loader.Grows l → I { m with loader := l }) (fuel : Nat)
    (r : Request) : Keeps I (r.serve fuel watch) := by
  cases r with
  | define name bytes => exact fun m hm => hgrow m _ hm (.define name bytes .refl)
  | defineAll artifacts => exact fun m hm => hgrow m _ hm (.defineAll artifacts .refl)
  | instantiate c args => exact bind (instantiate hI hwatch) fun _ => pure
  | instantiateInner c outer args => exact bind (instantiateInner hI hwatch) fun _ => pure
  | invoke v name args => exact bind (bind (virtualTarget hI) fun _ => call hI hwatch) fun _ => pure
  | invokeStatic c name args => exact bind (bind staticTarget fun _ => call hI hwatch) fun _ => pure
  | stringify v => exact bind (stringify hI hwatch v) fun _ => pure

end Keeps

/-! ## Sessions -/

/-- The loader grew from `start`, and the classes that the machine keeps are those that the loader has under their
names. -/
structure Machine.Linked (start : Loader) (m : Machine) : Prop where
  grows : start.Grows m.loader
  links : ∀ (name : String) (c : LoadedClass), m.links[name]? = some c → m.loader.resolve? name = some c

namespace Machine.Linked

variable {start : Loader} {m : Machine}

theorem stable : Stable (Linked start) where
  heap _ _ hm := ⟨hm.grows, hm.links⟩
  depth _ _ hm := ⟨hm.grows, hm.links⟩
  nestedRuns _ _ hm := ⟨hm.grows, hm.links⟩
  links m name c hm hc := by
    refine ⟨hm.grows, fun n k hk => ?_⟩
    rw [Std.HashMap.getElem?_insert] at hk
    split at hk
    · rename_i heq
      cases hk
      rw [← beq_iff_eq.1 heq]
      exact hc
    · exact hm.links n k hk

/-- Since no definition binds a name anew, the classes that are kept stay the right ones. -/
theorem grow (hm : m.Linked start) {l : Loader} (hl : m.loader.Grows l) : Linked start { m with loader := l } :=
  ⟨hm.grows.trans hl, fun name c hc => hl.extended name c (hm.links name c hc)⟩

end Machine.Linked

/-- Before a step classes may be defined from elsewhere, and the run may be given up; nothing else happens. -/
def Run.Watch.Defines (watch : Run.Watch) : Prop :=
  ∀ f callers m, Triple (watch f callers) m (fun _ m' => ∃ l, m.loader.Grows l ∧ m' = { m with loader := l })
    fun _ m' => ∃ l, m.loader.Grows l ∧ m' = { m with loader := l }

theorem Run.Watch.Defines.keeps {watch : Run.Watch} (h : watch.Defines) (start : Loader) (f : Frame)
    (callers : List Frame) : Keeps (Machine.Linked start) (watch f callers) := by
  intro m hm
  refine (h f callers m).mono ?_ ?_
  · rintro _ _ ⟨l, hl, rfl⟩
    exact hm.grow hl
  · rintro _ _ ⟨l, hl, rfl⟩
    exact hm.grow hl

namespace Request

/-- The machine after requests that are made one after the other, each with what those before left behind, also if they
failed. -/
def after (fuel : Nat) (watch : Run.Watch) : Machine → List Request → Machine
  | m, [] => m
  | m, r :: rest =>
    match r.serve fuel watch m with
    | .ok _ m => after fuel watch m rest
    | .error _ m => after fuel watch m rest

theorem linked_after {watch : Run.Watch} (hwatch : watch.Defines) (fuel : Nat) {start : Loader} {m : Machine}
    (hm : m.Linked start) (rs : List Request) : (after fuel watch m rs).Linked start := by
  induction rs generalizing m with
  | nil => exact hm
  | cons r rs ih =>
    have hserve := Keeps.serve Machine.Linked.stable (hwatch.keeps start) (fun _ _ h hl => h.grow hl) fuel r m hm
    rw [after]
    unfold Triple at hserve
    cases hr : r.serve fuel watch m with
    | ok a m' => rw [hr] at hserve; exact ih hserve
    | error e m' => rw [hr] at hserve; exact ih hserve

/-- In all that happens to a loader and to a machine over it, the name space stays well formed, no name is bound anew, a
field has one slot, the same in all subclasses, and the classes that the machine keeps are those that the loader has. -/
theorem nameSpace_invariant {watch : Run.Watch} (hwatch : watch.Defines) {m : Machine}
    (hloader : m.loader.Reachable) (hlinks : m.links = ∅) (fuel : Nat) (rs more : List Request) :
    (after fuel watch m rs).loader.WellFormed ∧
    (after fuel watch m rs).loader.Extends (after fuel watch (after fuel watch m rs) more).loader ∧
    (∀ name c, (after fuel watch m rs).loader.resolve? name = some c →
      (∀ k ∈ c.chain, ∀ owner field i, k.slot? owner field = some i → c.slot? owner field = some i) ∧
      ∀ i x, c.layout[i]? = some x → c.slot? x.owner.text x.name = some i) ∧
    ∀ (name : String) (c : LoadedClass), (after fuel watch m rs).links[name]? = some c →
      (after fuel watch m rs).loader.resolve? name = some c := by
  have hm : m.Linked m.loader := ⟨.refl, fun name c hc => by simp [hlinks] at hc⟩
  have hnow := linked_after hwatch fuel hm rs
  have hlater := linked_after hwatch fuel (m := after fuel watch m rs) ⟨.refl, hnow.links⟩ more
  have hwell := (hnow.grows.reachable hloader).wellFormed
  refine ⟨hwell, hlater.grows.extended, fun name c hc => ?_, hnow.links⟩
  have hplace := hwell.inPlace name c hc
  exact ⟨fun k hk owner field i hi => hwell.slot?_of_mem_chain hk hplace.bound hi, fun i x hx => hplace.slot?_eq hx⟩

/-- Defines the class `A` before every step. -/
def definer : Run.Watch := fun _ _ => onLoader fun l => (l.define "A" Offset.bytes).2

/-- Four steps are made for a call, and the watch comes before each. -/
theorem loader_after_offset (l : Loader) (g : Loader → Loader) :
    (after 100 (fun _ _ => onLoader g) { loader := l }
      [.define "A" [0xc1], .invokeStatic Offset.cls "offset" [.int 1]]).loader = g (g (g (g (l.define "A" [0xc1]).2))) := by
  with_unfolding_all rfl

theorem nameSpace_invariant_definer :
    definer.Defines ∧
      (after 100 definer { loader := .boot } [.define "A" [0xc1]]).loader.contains "A" = false ∧
      (after 100 definer { loader := .boot }
        [.define "A" [0xc1], .invokeStatic Offset.cls "offset" [.int 1]]).loader.resolve? "A" = some Offset.cls ∧
      (after 100 definer { loader := .boot }
        [.define "A" [0xc1], .invokeStatic Offset.cls "offset" [.int 1]]).loader.WellFormed ∧
      (after 100 definer { loader := .boot }
        [.define "A" [0xc1], .invokeStatic Offset.cls "offset" [.int 1]]).loader.Extends
          (after 100 definer (after 100 definer { loader := .boot }
            [.define "A" [0xc1], .invokeStatic Offset.cls "offset" [.int 1]]) [.define "A" Offset.bytes]).loader := by
  have hdefiner : definer.Defines := fun _ _ m => ⟨_, .define "A" Offset.bytes .refl, rfl⟩
  obtain ⟨hwell, hextends, -⟩ := nameSpace_invariant hdefiner (m := { loader := .boot }) .boot rfl 100
    [.define "A" [0xc1], .invokeStatic Offset.cls "offset" [.int 1]] [.define "A" Offset.bytes]
  -- The first step defines the class, and those that follow leave it bound.
  have hgrows : (Loader.boot.define "A" Offset.bytes).2.Grows (after 100 definer { loader := .boot }
      [.define "A" [0xc1], .invokeStatic Offset.cls "offset" [.int 1]]).loader := by
    have hloader := loader_after_offset .boot fun l => (l.define "A" Offset.bytes).2
    exact hloader ▸ .define _ _ (.define _ _ (.define _ _ .refl))
  exact ⟨hdefiner, Loader.contains_boot (by decide), hgrows.extended _ _ Offset.define_boot.2, hwell, hextends⟩

end Request

end ClassTree
