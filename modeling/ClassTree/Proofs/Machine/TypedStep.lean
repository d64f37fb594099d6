import ClassTree.Proofs.Machine.TypedState

/-!
# Steps of typed code

* `Frame.Fits`: the values of a frame have types. `Frame.Typed l h f pending`: the code of the frame is typed code of the loader
  `l`, and so are the values that it holds in the heap `h`; the frame waits for operands of the types `pending`.
* A call that is given a receiver and arguments of the types of a method begins with a frame that is typed, or is done and gives
  a result of the type of the method (`TypeSafe.beginCall`).
* Each instruction does to the values what its rule says of their types (`TypeSafe.exec`). So a step of a frame that is typed
  leaves a frame that is typed, in a machine that is typed (`TypeSafe.step`).
-/

namespace ClassTree

/-! ## Frames -/

/-- The local variables and the operands have the types of a state, but for operands that are pending, which come on top. -/
structure Frame.Fits (f : Frame) (h : Heap) (s : TypeState) (pending : List Ty) : Prop where
  locals : ∀ n t, s.locals n = some t → ∃ v, f.locals[n]? = some v ∧ h.Conforms v t
  stack : ∃ ts, s.stack = pending ++ ts ∧ List.Forall₂ h.Conforms f.stack ts

/-- The frame is one of a method of the loader with typed code, and its values have the types of its place in the code, but for
operands that are pending. -/
structure Frame.Typed (l : Loader) (h : Heap) (f : Frame) (pending : List Ty) : Prop where
  holds : l.Holds f.target.cls
  mem : f.target.method ∈ f.target.cls.methods
  place : ∃ (b : Block) (D : Nat → Option TypeState) (s : TypeState), f.code = b.encode ∧ D b.size = none ∧
    b.FitsIn (l.types f.constants f.target.method.ret) b.Boundary D 0 ∧ b.Boundary f.ip ∧
      (l.types f.constants f.target.method.ret).Sub (some s) (D f.ip) ∧ f.Fits h s pending

/-- What the caller of the frame waits for. -/
def Frame.returned (f : Frame) : List Ty := if f.keepResult then [f.target.method.ret] else []

/-- What is left of a frame after an instruction that leads to some offsets and leaves a state, up to operands that are
pending. -/
structure Frame.LeadsTo (f : Frame) (offsets : List Nat) (h : Heap) (s : TypeState) (pending : List Ty) (g : Frame) : Prop where
  target : g.target = f.target
  code : g.code = f.code
  keepResult : g.keepResult = f.keepResult
  ip : g.ip ∈ offsets
  fits : g.Fits h s pending

/-- What can follow an instruction that leads to some offsets and leaves a state. -/
def Control.Leaves (l : Loader) (f : Frame) (offsets : List Nat) (s : TypeState) (h : Heap) : Control → Prop
  | .next g => f.LeadsTo offsets h s [] g
  | .call caller callee => callee.Typed l h [] ∧ f.LeadsTo offsets h s callee.returned caller
  | .ret g v => g.target = f.target ∧ g.keepResult = f.keepResult ∧ ∀ w, v = some w → h.Conforms w f.target.method.ret

/-- What can follow a step of a frame. -/
def Control.Typed (l : Loader) (f : Frame) (h : Heap) : Control → Prop
  | .next g => g.Typed l h [] ∧ g.target = f.target ∧ g.keepResult = f.keepResult
  | .call caller callee => callee.Typed l h [] ∧ caller.Typed l h callee.returned ∧ caller.target = f.target ∧
      caller.keepResult = f.keepResult
  | .ret g v => g.target = f.target ∧ g.keepResult = f.keepResult ∧ ∀ w, v = some w → h.Conforms w f.target.method.ret

namespace Frame

variable {f g : Frame} {h h' : Heap} {s : TypeState} {pending ts us : List Ty} {t : Ty} {v : Value} {L : Nat → Option Ty}

theorem Fits.mono (hf : f.Fits h s pending) (hkept : ∀ id c, h.class? id = some c → h'.class? id = some c) :
    f.Fits h' s pending := by
  obtain ⟨hlocals, ts, hts, hstack⟩ := hf
  refine ⟨fun n t hn => ?_, ts, hts, hstack.imp fun _ _ hv => hv.mono hkept⟩
  obtain ⟨v, hv, hconforms⟩ := hlocals n t hn
  exact ⟨v, hv, hconforms.mono hkept⟩

theorem Typed.mono {l : Loader} (hf : f.Typed l h pending) (hkept : ∀ id c, h.class? id = some c → h'.class? id = some c) :
    f.Typed l h' pending := by
  obtain ⟨hholds, hmem, b, D, s, hcode, hend, hfits, hip, hsub, hvalues⟩ := hf
  exact ⟨hholds, hmem, b, D, s, hcode, hend, hfits, hip, hsub, hvalues.mono hkept⟩

/-- The rule for a value that is pushed. -/
theorem Fits.cons (hf : f.Fits h ⟨L, ts⟩ []) (hv : h.Conforms v t) : (f.push v).Fits h ⟨L, t :: ts⟩ [] := by
  obtain ⟨hlocals, us, hus, hstack⟩ := hf
  obtain rfl : ts = us := hus
  exact ⟨hlocals, t :: ts, rfl, .cons hv hstack⟩

/-- The rule for operands that are still to come. -/
theorem Fits.defer (hf : f.Fits h ⟨L, ts⟩ []) (pending : List Ty) : f.Fits h ⟨L, pending ++ ts⟩ pending := by
  obtain ⟨hlocals, us, hus, hstack⟩ := hf
  obtain rfl : ts = us := hus
  exact ⟨hlocals, ts, rfl, hstack⟩

/-- A value that was waited for is pushed. -/
theorem Fits.fulfil (hf : f.Fits h s [t]) (hv : h.Conforms v t) : (f.push v).Fits h s [] := by
  obtain ⟨hlocals, us, hus, hstack⟩ := hf
  exact ⟨hlocals, t :: us, hus, .cons hv hstack⟩

/-- A frame goes on when the call that it waits for has returned. -/
theorem Typed.resume {l : Loader} {callee : Frame} (hf : f.Typed l h callee.returned)
    (hv : h.Conforms v callee.target.method.ret) : Typed l h (if callee.keepResult then f.push v else f) [] := by
  obtain ⟨hholds, hmem, b, D, s, hcode, hend, hfits, hip, hsub, hvalues⟩ := hf
  rw [returned] at hvalues
  split
  · rename_i hkeep
    rw [if_pos hkeep] at hvalues
    exact ⟨hholds, hmem, b, D, s, hcode, hend, hfits, hip, hsub, hvalues.fulfil hv⟩
  · rename_i hkeep
    rw [if_neg hkeep] at hvalues
    exact ⟨hholds, hmem, b, D, s, hcode, hend, hfits, hip, hsub, hvalues⟩

/-- Whether the result is kept is of no matter to a frame itself. -/
theorem Typed.keeping {l : Loader} (hf : f.Typed l h pending) (keep : Bool) :
    Typed l h { f with keepResult := keep } pending := by
  obtain ⟨hholds, hmem, b, D, s, hcode, hend, hfits, hip, hsub, hlocals, hstack⟩ := hf
  exact ⟨hholds, hmem, b, D, s, hcode, hend, hfits, hip, hsub, hlocals, hstack⟩

/-- The topmost operand of a frame. -/
theorem Fits.top (hf : f.Fits h ⟨L, t :: ts⟩ []) :
    ∃ v stack, f.stack = v :: stack ∧ h.Conforms v t ∧ Fits { f with stack } h ⟨L, ts⟩ [] := by
  obtain ⟨hlocals, us, hus, hstack⟩ := hf
  obtain rfl : t :: ts = us := hus
  obtain ⟨v, stack, hv, hstack, hsame⟩ := List.forall₂_cons_right_iff.1 hstack
  exact ⟨v, stack, hsame, hv, hlocals, ts, rfl, hstack⟩

/-- The topmost operands of a frame, in the order in which they were pushed. -/
theorem Fits.args (hf : f.Fits h ⟨L, ts.reverse ++ us⟩ []) : ts.length ≤ f.stack.length ∧
    List.Forall₂ h.Conforms (f.stack.take ts.length).reverse ts ∧
      Fits { f with stack := f.stack.drop ts.length } h ⟨L, us⟩ [] := by
  obtain ⟨hlocals, all, hall, hstack⟩ := hf
  obtain rfl : ts.reverse ++ us = all := hall
  have htake := List.forall₂_take_append f.stack ts.reverse us hstack
  have hdrop := List.forall₂_drop_append f.stack ts.reverse us hstack
  rw [List.length_reverse] at htake hdrop
  refine ⟨?_, by simpa using List.rel_reverse htake, hlocals, us, rfl, hdrop⟩
  have hlength := hstack.length_eq
  rw [List.length_append, List.length_reverse] at hlength
  omega

end Frame

namespace TypeSafe

variable {l : Loader} {m : Machine} {f g : Frame} {L : Nat → Option Ty} {s s' : TypeState} {ts us : List Ty} {t u : Ty}
  {o : Nat} {offsets : List Nat}

variable {α β : Type} {Q : β → Heap → Prop}

/-- The rule for what comes after the topmost operand. -/
theorem pop_bind {k : Value × Frame → Run β} (hf : f.Fits m.heap ⟨L, t :: ts⟩ [])
    (hk : ∀ v stack, m.heap.Conforms v t → Frame.Fits { f with stack } m.heap ⟨L, ts⟩ [] →
      TypeSafe l (k (v, { f with stack })) m Q) : TypeSafe l (f.pop >>= k) m Q := by
  obtain ⟨v, stack, hstack, hv, hrest⟩ := hf.top
  rw [Frame.pop, hstack]
  exact hk v stack hv hrest

/-- The rule for what comes after the operands of a call. -/
theorem popArgs_bind {k : List Value × Frame → Run β} (hf : f.Fits m.heap ⟨L, ts.reverse ++ us⟩ [])
    (hk : ∀ args stack, List.Forall₂ m.heap.Conforms args ts → Frame.Fits { f with stack } m.heap ⟨L, us⟩ [] →
      TypeSafe l (k (args, { f with stack })) m Q) : TypeSafe l (f.popArgs ts.length >>= k) m Q := by
  obtain ⟨hle, hargs, hrest⟩ := hf.args
  rw [Frame.popArgs, if_pos hle]
  exact hk _ _ hargs hrest

/-- The rule for what comes after an operand of an instruction that is there. -/
theorem operand_bind {x : Option α} {a : α} {k : α → Run β} {back : Nat} {reason : String} (hx : x = some a)
    (hk : TypeSafe l (k a) m Q) : TypeSafe l (f.operand x back reason >>= k) m Q := by
  rw [hx]
  exact hk

end TypeSafe

/-! ## Beginnings of calls -/

/-- A call of the method may be given the receiver: none if the method is static. -/
def Target.Receives (t : Target) (h : Heap) (receiver : Option Value) : Prop :=
  List.Forall₂ h.Conforms receiver.toList (if t.method.isStatic then [] else [.ref t.cls.name])

/-- A call that is done with a result of the type, or entered with a frame that gives one. -/
def Invocation.Typed (l : Loader) (ret : Ty) (h : Heap) : Invocation → Prop
  | .done v => h.Conforms v ret
  | .enter f => f.Typed l h [] ∧ f.target.method.ret = ret

/-- The local variables that a call begins with. -/
theorem getElem?_initialLocals {receiver : Option Value} {args : List Value} {n : Nat} {v : Value} (maxLocals : UInt16)
    (hv : (receiver.toList ++ args)[n]? = some v) : (initialLocals receiver args maxLocals)[n]? = some v := by
  obtain ⟨hlt, -⟩ := List.getElem?_eq_some_iff.1 hv
  rw [initialLocals, List.getElem?_toArray, List.getElem?_append_left hlt, hv]

/-- A method with typed code begins with a frame that is typed. -/
theorem Target.typed_enter {l : Loader} (hl : l.Typed) {t : Target} (hholds : l.Holds t.cls) (hmem : t.method ∈ t.cls.methods)
    {maxLocals : UInt16} {code : Array UInt8} (hbody : t.method.body = .code maxLocals code) {h : Heap}
    {receiver : Option Value} (hreceiver : t.Receives h receiver) {args : List Value}
    (hargs : List.Forall₂ h.Conforms args t.method.params) :
    Frame.Typed l h { target := t, code, locals := initialLocals receiver args maxLocals } [] := by
  obtain ⟨b, rfl, hover, htypes⟩ := hl.methods t.cls hholds t.method hmem maxLocals code hbody
  obtain ⟨D, hstart, hend, hfits⟩ := htypes hover 0
  rw [Nat.zero_add] at hend
  refine ⟨hholds, hmem, b, D, _, rfl, hend, fun o i hi => ?_, b.boundary_zero, hstart, fun n ty hn => ?_, [], rfl, .nil⟩
  · obtain ⟨hadmits, hwithin, htargets, hat⟩ := hfits o i hi
    refine ⟨hadmits, hwithin, fun x hx => ?_, hat⟩
    obtain ⟨y, rfl, hy⟩ := htargets x hx
    rwa [Nat.zero_add]
  · have hvalues : List.Forall₂ h.Conforms (receiver.toList ++ args) (t.method.locals t.cls.name) :=
      List.rel_append hreceiver hargs
    have hn : (t.method.locals t.cls.name)[n]? = some ty := hn
    obtain ⟨hlt, hget⟩ := List.getElem?_eq_some_iff.1 hn
    have hlt' : n < (receiver.toList ++ args).length := by
      rw [hvalues.length_eq]
      exact hlt
    refine ⟨_, getElem?_initialLocals maxLocals (List.getElem?_eq_getElem hlt'), ?_⟩
    rw [← hget]
    exact hvalues.get hlt' hlt

namespace TypeSafe

variable {l : Loader} (hl : l.Typed) {render : Value → Run String}
  (hrender : ∀ v m, m.Typed l → TypeSafe l (render v) m fun _ _ => True)
include hl hrender

/-- A call with arguments that can be converted. -/
theorem beginCall {m : Machine} {t : Target} {sig : Signature} (ht : t.Serves l sig) (hm : m.Typed l)
    {receiver : Option Value} (hreceiver : t.Receives m.heap receiver) {args ws : List Value}
    (hlength : args.length = sig.params.length) (hws : m.heap.coerceAll args sig.params = .ok ws) :
    TypeSafe l (ClassTree.beginCall render t receiver args) m fun i h => i.Typed l sig.ret h := by
  obtain ⟨hholds, hmem, habstract, hparams, hret⟩ := ht
  rw [← hparams] at hlength hws
  have hargs := Heap.conforms_coerceAll hlength hws
  refine bind_get (failIf hm (fun _ => trivial) fun _ => failIf hm (fun hne => absurd hlength hne) fun _ => ?_)
  refine ask_bind hws ?_
  split
  · rename_i n hbody
    have hhosted := LoadedClass.isHosted_of_mem_hosts t.cls (hl.native t.cls hholds t.method hmem n hbody) t.method hmem
    rw [LoadedMethod.isHosted, hbody] at hhosted
    simp only [Bool.and_eq_true, Bool.not_eq_true'] at hhosted
    obtain ⟨hfits, hstatic⟩ := hhosted
    rw [Target.Receives, if_neg (by simp [hstatic])] at hreceiver
    have hv : m.heap.Conforms (receiver.getD .null) (.ref t.cls.name) := by
      cases receiver with
      | none => cases hreceiver
      | some v => exact (List.forall₂_cons.1 hreceiver).1
    refine bind (Q := fun w h => h.Conforms w t.method.ret) (deeper hm fun m₁ h₁ _ => ?_) fun v m₂ h₂ hw => ?_
    · exact native hl.reachable.wellFormed hl.builder hrender hfits h₁.typed (h₁.conforms hv)
        (hargs.imp fun _ _ hv => h₁.conforms hv)
    · exact ask_bind (Heap.finish_eq hw) (pure h₂.typed (hret ▸ hw))
  · rename_i hbody
    exact pure hm ⟨Target.typed_enter hl hholds hmem hbody hreceiver hargs, hret⟩
  · rename_i hbody
    exact absurd hbody habstract

variable {m : Machine} {f g : Frame} {L : Nat → Option Ty} {s s' : TypeState} {ts us : List Ty} {t u : Ty}
  {o : Nat} {offsets : List Nat} {args : List Value}

/-- A call from what an instruction left of a frame. -/
theorem dispatch {t : Target} {sig : Signature} (ht : t.Serves l sig) (hm : m.Typed l) {receiver : Option Value}
    (hreceiver : t.Receives m.heap receiver) (hargs : List.Forall₂ m.heap.Conforms args sig.params) {stack : List Value}
    (hg : g = { f with stack }) (hvalues : g.Fits m.heap ⟨L, ts⟩ []) (hnext : f.ip ∈ offsets) :
    TypeSafe l (g.dispatch render t receiver args (!sig.ret.isVoid)) m fun c h =>
      c.Leaves l f offsets ⟨L, sig.ret.pushed ++ ts⟩ h := by
  refine bind (beginCall hl hrender ht hm hreceiver hargs.length_eq (Heap.coerceAll_eq hargs)) fun i m₁ h₁ hi => ?_
  have hvalues := hvalues.mono h₁.kept
  subst hg
  cases i with
  | done v =>
    refine pure h₁.typed ⟨?_, ?_, ?_, ?_, ?_⟩
    · split <;> rfl
    · split <;> rfl
    · split <;> rfl
    · split <;> exact hnext
    · cases hvoid : sig.ret.isVoid with
      | true => simpa [Ty.pushed, hvoid] using hvalues
      | false =>
        rw [Ty.pushed_eq hvoid]
        exact hvalues.cons hi
  | enter callee =>
    obtain ⟨hcallee, hret⟩ := hi
    refine pure h₁.typed ⟨hcallee.keeping _, rfl, rfl, rfl, hnext, ?_⟩
    have hpending : Frame.returned { callee with keepResult := !sig.ret.isVoid } = sig.ret.pushed := by
      rw [Frame.returned, Ty.pushed, hret]
      cases sig.ret.isVoid <;> rfl
    rw [hpending]
    exact hvalues.defer _

/-! ## Instructions -/

/-- The method that answers a call is one of the class of the receiver. -/
theorem invoke_virtual {ref : UInt16} {r : MemberRef} {n : Name} {sig : Signature} (hr : f.constants.methodRef? ref = some r)
    (hanswers : l.Answers n r sig) (hm : m.Typed l) (hf : f.Fits m.heap ⟨L, sig.params.reverse ++ .ref n :: ts⟩ [])
    (hnext : f.ip ∈ offsets) :
    TypeSafe l (f.invoke render .virtual ref) m fun c h => c.Leaves l f offsets ⟨L, sig.ret.pushed ++ ts⟩ h := by
  obtain ⟨owner, howner⟩ := Option.isSome_iff_exists.1 hanswers.owner
  refine operand_bind hr (operand_bind hanswers.signature (bind (link hm howner _) fun k m₁ h₁ _ => ?_))
  refine popArgs_bind (hf.mono h₁.kept) fun args _ hargs hvalues => pop_bind hvalues fun v stack hv hvalues => ?_
  refine bind (classOf hl.reachable.wellFormed h₁.typed hv _) fun c m₂ h₂ hc => ?_
  obtain ⟨hclass, hholds, hconcrete, hdistance⟩ := hc
  obtain ⟨t, ht, hserves, hstatic⟩ := hanswers.target c hholds hconcrete hdistance
  refine need_bind ht ?_
  -- The method is one of a superclass of the class of the receiver.
  have hreceiver : t.Receives m₂.heap (some v) := by
    obtain ⟨k, hk, hown⟩ := List.exists_of_findSome?_eq_some ht
    obtain ⟨_, -, rfl⟩ := Option.map_eq_some_iff.1 hown
    rw [Target.Receives, if_neg (by simp [hstatic])]
    exact .cons ((Heap.conforms_ref_iff hclass).2 (LoadedClass.isSome_distance? hk)) .nil
  have hargs₂ := hargs.imp fun _ _ hv => h₂.conforms hv
  exact dispatch hl hrender hserves h₂.typed hreceiver hargs₂ rfl (hvalues.mono h₂.kept) hnext

theorem invoke_static {ref : UInt16} {r : MemberRef} {sig : Signature} (hr : f.constants.methodRef? ref = some r)
    (hstatic : l.HasStatic r sig) (hm : m.Typed l) (hf : f.Fits m.heap ⟨L, sig.params.reverse ++ ts⟩ [])
    (hnext : f.ip ∈ offsets) :
    TypeSafe l (f.invoke render .static ref) m fun c h => c.Leaves l f offsets ⟨L, sig.ret.pushed ++ ts⟩ h := by
  obtain ⟨hsignature, owner, t, howner, ht, hflag, hserves⟩ := hstatic
  refine operand_bind hr (operand_bind hsignature (bind (link hm howner _) fun k m₁ h₁ hk => ?_))
  subst hk
  have hfound : (k.findMethod? r.name r.descriptor).filter (·.method.isStatic) = some t :=
    Option.filter_eq_some_iff.2 ⟨ht, hflag⟩
  refine need_bind hfound (popArgs_bind (hf.mono h₁.kept) fun args stack hargs hvalues => ?_)
  have hreceiver : t.Receives m₁.heap none := by
    rw [Target.Receives, if_pos hflag]
    exact .nil
  exact dispatch hl hrender hserves h₁.typed hreceiver hargs rfl hvalues hnext

theorem invoke_special {ref : UInt16} {r : MemberRef} {n : Name} {sig : Signature} (hr : f.constants.methodRef? ref = some r)
    (hconstructor : l.HasConstructor n r sig) (hm : m.Typed l)
    (hf : f.Fits m.heap ⟨L, sig.params.reverse ++ .ref n :: ts⟩ []) (hnext : f.ip ∈ offsets) :
    TypeSafe l (f.invoke render .special ref) m fun c h => c.Leaves l f offsets ⟨L, sig.ret.pushed ++ ts⟩ h := by
  obtain ⟨hsignature, owner, method, howner, rfl, hmethod, hflag, hserves⟩ := hconstructor
  refine operand_bind hr (operand_bind hsignature (bind (link hm howner _) fun k m₁ h₁ hk => ?_))
  subst hk
  refine need_bind hmethod (popArgs_bind (hf.mono h₁.kept) fun args _ hargs hvalues => ?_)
  refine pop_bind hvalues fun v stack hv hvalues => failIf h₁.typed (fun _ => trivial) fun _ => ?_
  have hreceiver : Target.Receives ⟨k, method⟩ m₁.heap (some v) := by
    rw [Target.Receives, if_neg (by simp [hflag])]
    exact .cons hv .nil
  exact dispatch hl hrender hserves h₁.typed hreceiver hargs rfl hvalues hnext

omit hl hrender in
/-- A constant has a value of its type. -/
theorem exists_constant {k : UInt16} {item : Item} (h : Heap) (hk : f.constants.Has k item) (ht : item.ty? = some t) :
    ∃ v, f.constant k = .ok v ∧ h.Conforms v t := by
  cases item <;> cases ht
  case int n => exact ⟨.int n, by rw [Frame.constant, show f.constants.get? k = _ from hk], rfl⟩
  case long n => exact ⟨.long n, by rw [Frame.constant, show f.constants.get? k = _ from hk], rfl⟩
  case double d =>
    obtain ⟨d', hk, -⟩ := hk
    exact ⟨.double d', by rw [Frame.constant, hk], rfl⟩
  case string text =>
    have htext : f.constants.string? k = some text := hk
    have hfound := htext
    unfold Constants.string? at hfound
    split at hfound
    · rename_i heq
      exact ⟨.str text, by simp only [Frame.constant, heq, htext], rfl⟩
    · cases hfound

omit hl hrender in
/-- The rule for an operator with one operand. -/
theorem unary {op : Heap → Value → Except RuntimeError Value} (hm : m.Typed l) (hf : f.Fits m.heap ⟨L, t :: ts⟩ [])
    (hop : ∀ v, m.heap.Conforms v t → ∃ w, op m.heap v = .ok w ∧ m.heap.Conforms w u) (hnext : f.ip ∈ offsets) :
    TypeSafe l (f.unary op) m fun c h => c.Leaves l f offsets ⟨L, u :: ts⟩ h := by
  obtain ⟨v, stack, hstack, hv, hrest⟩ := hf.top
  obtain ⟨w, hw, hconforms⟩ := hop v hv
  rw [Frame.unary, hstack]
  exact ask_bind hw (pure hm ⟨rfl, rfl, rfl, hnext, hrest.cons hconforms⟩)

omit hl hrender in
/-- The rule for an operator with two operands. -/
theorem binary {op : Value → Value → Run Value} {r : Ty} (hf : f.Fits m.heap ⟨L, t :: u :: ts⟩ [])
    (hop : ∀ a b, m.heap.Conforms a u → m.heap.Conforms b t → TypeSafe l (op a b) m fun w h => h.Conforms w r)
    (hnext : f.ip ∈ offsets) : TypeSafe l (f.binary op) m fun c h => c.Leaves l f offsets ⟨L, r :: ts⟩ h := by
  obtain ⟨b, stack, hstack, hb, hrest⟩ := hf.top
  obtain ⟨a, stack', hstack', ha, hrest⟩ := hrest.top
  rw [Frame.binary, hstack, show stack = _ from hstack']
  refine bind (hop a b ha hb) fun w m₁ h₁ hw => ?_
  exact pure h₁.typed ⟨rfl, rfl, rfl, hnext, (hrest.mono h₁.kept).cons hw⟩

omit hl hrender in
/-- Numbers are not joined as texts. -/
theorem arithmetic_eq {h : Heap} {a b : Value} (ht : t.isNumeric = true) (ha : h.Conforms a t) (hb : h.Conforms b t)
    (render : Value → Run String) (op : ArithOp) : arithmetic render op a b = Run.ask (·.arith op a b) := by
  rcases ha.number ht with ⟨x, rfl, rfl⟩ | ⟨x, rfl, rfl⟩ | ⟨x, rfl, rfl⟩ <;>
    rcases hb.number ht with ⟨y, hy, rfl⟩ | ⟨y, hy, rfl⟩ | ⟨y, hy, rfl⟩ <;> cases op <;> rfl

omit hl in
theorem concat (hm : m.Typed l) (a b : Value) :
    TypeSafe l (ClassTree.concat render a b) m fun w h => h.Conforms w .string :=
  bind (hrender a m hm) fun _ m₁ h₁ _ => bind (hrender b m₁ h₁.typed) fun _ _ h₂ _ => pure h₂.typed rfl

omit hl hrender in
/-- The rule for a value that is stored in a local variable. -/
theorem store (slot : UInt16) (hm : m.Typed l) (hf : f.Fits m.heap ⟨L, t :: ts⟩ []) (hnext : f.ip ∈ offsets) :
    TypeSafe l (f.exec render (.store slot)) m fun c h =>
      c.Leaves l f offsets ⟨Function.update L slot.toNat (some t), ts⟩ h := by
  obtain ⟨v, stack, hstack, hv, hlocals, us, hus, hrest⟩ := hf.top
  rw [Frame.exec, hstack]
  dsimp only
  split
  · rename_i hslot
    refine pure hm ⟨rfl, rfl, rfl, hnext, fun n ty hn => ?_, us, hus, hrest⟩
    dsimp only at hn ⊢
    rw [Array.getElem?_setIfInBounds]
    by_cases hsame : slot.toNat = n
    · rw [if_pos hsame, if_pos (hsame ▸ hslot)]
      rw [← hsame, Function.update_self] at hn
      cases hn
      exact ⟨v, rfl, hv⟩
    · rw [if_neg hsame]
      rw [Function.update_of_ne (Ne.symm hsame)] at hn
      exact hlocals n ty hn
  · exact fail hm (.inr rfl)

omit hl hrender in
theorem mem_leads {i : Instr} (hterm : i.opcode.isTerminator = false) (hip : f.ip = o + i.size) : f.ip ∈ i.leads o := by
  rw [hip, Instr.leads, hterm]
  exact List.mem_append_right _ (List.mem_singleton.2 rfl)

/-- An instruction does to values what its rule says of their types. -/
theorem exec {i : Instr} (hstep : i.Types l f.constants f.target.method.ret s s') (hm : m.Typed l)
    (hf : f.Fits m.heap s []) (hip : f.ip = o + i.size) (hwithin : i.Within o) :
    TypeSafe l (f.exec render i) m fun c h => c.Leaves l f (i.leads o) s' h := by
  have hwell := hl.reachable.wellFormed
  have hterm := Instr.isTerminator_opcode i
  cases hstep with
  | ldc hi ht =>
    obtain ⟨v, hv, hconforms⟩ := exists_constant m.heap hi ht
    rw [Frame.exec, hv]
    exact pure hm ⟨rfl, rfl, rfl, mem_leads hterm hip, hf.cons hconforms⟩
  | push k L st =>
    refine pure hm ⟨rfl, rfl, rfl, mem_leads hterm hip, hf.cons ?_⟩
    cases k <;> rfl
  | pop t L st =>
    exact pop_bind hf fun v stack _ hvalues => pure hm ⟨rfl, rfl, rfl, mem_leads hterm hip, hvalues⟩
  | dup t L st =>
    obtain ⟨v, stack, hstack, hv, -⟩ := hf.top
    rw [Frame.exec, hstack]
    exact pure hm ⟨rfl, rfl, rfl, mem_leads hterm hip, hf.cons hv⟩
  | dupX1 t u L st =>
    obtain ⟨b, stack, hstack, hb, hrest⟩ := hf.top
    obtain ⟨a, stack', hstack', ha, hrest⟩ := hrest.top
    rw [Frame.exec, hstack, show stack = _ from hstack']
    exact pure hm ⟨rfl, rfl, rfl, mem_leads hterm hip, ((hrest.cons hb).cons ha).cons hb⟩
  | load h st =>
    obtain ⟨v, hget, hv⟩ := hf.locals _ _ h
    rw [Frame.exec, hget]
    exact pure hm ⟨rfl, rfl, rfl, mem_leads hterm hip, hf.cons hv⟩
  | store slot t L st => exact store slot hm hf (mem_leads hterm hip)
  | getField hr hfield L st =>
    obtain ⟨owner, howner⟩ := Option.isSome_iff_exists.1 hfield.owner
    refine operand_bind hr (bind (link hm howner _) fun _ m₁ h₁ _ => ?_)
    refine pop_bind (hf.mono h₁.kept) fun v stack hv hvalues => ?_
    refine bind (readField hwell h₁.typed hfield hv) fun w m₂ h₂ hw => ?_
    exact pure h₂.typed ⟨rfl, rfl, rfl, mem_leads hterm hip, (hvalues.mono h₂.kept).cons hw⟩
  | putField hr hfield L st =>
    obtain ⟨owner, howner⟩ := Option.isSome_iff_exists.1 hfield.owner
    refine operand_bind hr (bind (link hm howner _) fun _ m₁ h₁ _ => ?_)
    refine pop_bind (hf.mono h₁.kept) fun w _ hw hvalues => pop_bind hvalues fun v stack hv hvalues => ?_
    refine bind (writeField hwell h₁.typed hfield hv hw) fun _ m₂ h₂ _ => ?_
    exact pure h₂.typed ⟨rfl, rfl, rfl, mem_leads hterm hip, hvalues.mono h₂.kept⟩
  | new hn hallocates L st =>
    obtain ⟨k, hk, rfl, hinstantiable⟩ := hallocates
    refine operand_bind hn (bind (link hm hk _) fun _ m₁ h₁ hsame => ?_)
    subst hsame
    refine failIf h₁.typed (fun habstract => ?_) fun _ => ?_
    · rw [hinstantiable.2.1] at habstract
      cases habstract
    · refine bind (alloc h₁.typed hinstantiable) fun v m₂ h₂ hv => ?_
      have hconforms := (Heap.conforms_ref_iff hv).2 (LoadedClass.isSome_distance? (LoadedClass.mem_chain_self _))
      exact pure h₂.typed ⟨rfl, rfl, rfl, mem_leads hterm hip, (hf.mono (h₁.trans h₂).kept).cons hconforms⟩
  | «virtual» hr hanswers L st => exact invoke_virtual hl hrender hr hanswers hm hf (mem_leads hterm hip)
  | «static» hr hstatic L st => exact invoke_static hl hrender hr hstatic hm hf (mem_leads hterm hip)
  | «special» hr hconstructor L st => exact invoke_special hl hrender hr hconstructor hm hf (mem_leads hterm hip)
  | arith op ht L st =>
    refine binary hf (fun a b ha hb => ?_) (mem_leads hterm hip)
    rw [arithmetic_eq ht ha hb]
    refine ask hm (fun w hw => Heap.arith_conforms ht ha hb hw) fun e he => ?_
    rw [Heap.arith_error ht ha hb he]
    trivial
  | neg ht L st => exact unary hm hf (fun v hv => Heap.exists_negate ht hv) (mem_leads hterm hip)
  | not L st => exact unary hm hf (fun v hv => Heap.exists_complement hv) (mem_leads hterm hip)
  | concat t u L st => exact binary hf (fun a b _ _ => concat hrender hm a b) (mem_leads hterm hip)
  | widen hw L st => exact unary hm hf (fun v hv => Heap.exists_widen hw hv) (mem_leads hterm hip)
  | compare hcompares L st =>
    refine binary hf (fun a b ha hb => ?_) (mem_leads hterm hip)
    obtain ⟨w, hw, hconforms⟩ := Heap.exists_compare hcompares ha hb
    exact ask_ok hm hw hconforms
  | jump w s =>
    refine pure hm ⟨rfl, rfl, rfl, ?_, hf.locals, hf.stack⟩
    rw [Block.Flows.leads_jump, hip]
    exact List.mem_singleton.2 rfl
  | jumpIfFalse w L st =>
    refine pop_bind hf fun v stack hv hvalues => ?_
    obtain ⟨x, hx⟩ := Heap.exists_truth hv
    refine ask_bind hx ?_
    cases x with
    | true => exact pure hm ⟨rfl, rfl, rfl, mem_leads hterm hip, hvalues⟩
    | false =>
      refine pure hm ⟨rfl, rfl, rfl, ?_, hvalues.locals, hvalues.stack⟩
      rw [Block.Flows.leads_jumpIfFalse, hip]
      exact List.mem_cons_self
  | loop w s =>
    rw [Frame.exec, if_pos (by rw [hip]; exact hwithin w rfl)]
    refine pure hm ⟨rfl, rfl, rfl, ?_, hf.locals, hf.stack⟩
    rw [Block.Flows.leads_loop, hip]
    exact List.mem_singleton.2 rfl
  | ret L st =>
    refine pop_bind hf fun v stack hv _ => pure hm ⟨rfl, rfl, fun w hw => ?_⟩
    cases hw
    exact hv
  | retVoid s =>
    refine pure hm ⟨rfl, rfl, fun w hw => ?_⟩
    cases hw

omit hl hrender in
/-- What has the types of a place also has those of a place that is entailed. -/
theorem fits_of_entails (hwell : l.WellFormed) (hm : m.Typed l) (hf : f.Fits m.heap s []) (hs : s.Entails l s') :
    f.Fits m.heap s' [] := by
  obtain ⟨hlocals, us, hus, hstack⟩ := hf
  obtain rfl : s.stack = us := hus
  refine ⟨fun n t hn => hlocals n t (hs.locals n t hn), _, rfl, ?_⟩
  exact forall₂_comp (fun v s t (hv : m.heap.Conforms v s) (hst : l.IsSubtype s t) => hm.conforms hwell hv hst) hstack hs.stack

/-- A step of a frame that is typed. -/
theorem step (hm : m.Typed l) (hf : f.Typed l m.heap []) :
    TypeSafe l (f.step render) m fun c h => c.Typed l f h := by
  obtain ⟨hholds, hmem, b, D, s, hcode, hend, hfits, hip, hsub, hvalues⟩ := hf
  cases hD : D f.ip with
  | none =>
    rw [hD] at hsub
    exact hsub.elim
  | some s₁ =>
    rw [hD] at hsub
    obtain ⟨i, hi⟩ : ∃ i, b.Stands f.ip i := by
      rcases hip with hip | hi
      · rw [hip, hend] at hD
        cases hD
      · exact hi
    obtain ⟨-, hwithin, htargets, hat⟩ := hfits _ i hi
    rw [Nat.zero_add] at hwithin htargets hat
    obtain ⟨s', hstep, hleads⟩ := hat s₁ hD
    have hread : Instr.at? f.code f.ip = some i := by
      rw [hcode]
      exact hi.at?
    rw [Frame.step, Frame.fetch_eq_ok hread]
    have hvalues₁ := fits_of_entails hl.reachable.wellFormed hm hvalues hsub
    have hexec := exec (f := { f with ip := f.ip + i.size }) hl hrender hstep hm ⟨hvalues₁.locals, hvalues₁.stack⟩ rfl hwithin
    have hleft : ∀ {h : Heap} {pending : List Ty} {g : Frame},
        Frame.LeadsTo { f with ip := f.ip + i.size } (i.leads f.ip) h s' pending g → g.Typed l h pending := by
      rintro h pending g ⟨htarget, hcode', -, hg, hfits'⟩
      have hconstants : g.constants = f.constants := by rw [Frame.constants, htarget]; rfl
      refine ⟨by rw [htarget]; exact hholds, by rw [htarget]; exact hmem, b, D, s', hcode'.trans hcode, hend, ?_,
        Block.boundary_of_mem_leads hi htargets hg, ?_, hfits'⟩
      · rw [hconstants, htarget]
        exact hfits
      · rw [hconstants, htarget]
        exact hleads _ hg
    refine hexec.mono fun c m₁ h₁ hc => ?_
    cases c with
    | next g => exact ⟨hleft hc, hc.target, hc.keepResult⟩
    | call caller callee => exact ⟨hc.1, hleft hc.2, hc.2.target, hc.2.keepResult⟩
    | ret g v => exact hc

end TypeSafe

end ClassTree
