import ClassTree.Proofs.Machine.Safe

/-!
# Steps of verified code

* `Frame.inOrder`: a frame as the verification of its code foresaw it. It stands at an instruction that was decoded, with
  as many values on its operand stack as were computed for that place, with all the local variables that the code may
  use, and with constants of the kinds that the instruction needs.
* `Frame.Ready f n`: the frame will be in order when `n` more values are on its stack, as is a frame that waits for the
  result of a call.
* A step of a frame that is in order does not fail because of invalid code, and what follows it is ready again
  (`Frame.Ready.step`).
-/

namespace ClassTree

/-- Whether the constants that an instruction names are there and of the kinds that it needs. -/
def Instr.isSupplied (cs : Constants) : Instr → Bool
  | .ldc i =>
    match cs.get? i with
    | some (.int _) | some (.long _) | some (.double _) => true
    | some (.string _) => (cs.string? i).isSome
    | _ => false
  | .field _ ref => (cs.fieldRef? ref).isSome
  | .fieldDyn _ name | .invokeDynamic name _ => (cs.utf8? name).isSome
  | .new cls | .invokeSpecialDyn cls _ => (cs.className? cls).isSome
  | .invoke _ ref => (cs.methodRef? ref).any fun r => (Signature.ofDescriptor? r.descriptor).isSome
  | .invokeStaticDyn cls name _ => (cs.className? cls).isSome && (cs.utf8? name).isSome
  | _ => true

/-- Whether the frame is as the verification of its code foresaw it. -/
def Frame.inOrder (f : Frame) : Bool :=
  match f.target.method.check? f.constants, Instr.at? f.code f.ip with
  | some k, some i =>
    match k.analyze with
    | .ok (effects, depths) =>
      k.code = f.code && (effects[f.ip]?.join).isSome && depths[f.ip]?.join = some f.stack.length &&
        k.maxLocals.toNat ≤ f.locals.size && i.isSupplied f.constants
    | .error _ => false
  | _, _ => false

namespace CodeCheck

variable {c : CodeCheck} {o : Nat} {i : Instr} {e : Effect}

theorem need_eq_ok {α : Type} {reason : String} {x : Option α} {a : α} :
    c.need o reason x = .ok a ↔ x = some a := orFail_eq_ok

theorem analyze_eq_ok {effects : Array (Option Effect)} {depths : Array (Option Nat)}
    (h : c.analyze = .ok (effects, depths)) : c.decode = .ok effects ∧ c.checkStack effects = .ok depths := by
  simp only [analyze, bind_eq_ok, pure_eq_ok] at h
  obtain ⟨effects', hdecode, _, -, depths', hstack, heq⟩ := h
  cases heq
  exact ⟨hdecode, hstack⟩

/-- What verification decodes has the constants that it needs. -/
theorem isSupplied_of_effect (hv : c.constants.verify = .ok ()) (h : c.effect o i = .ok e) :
    i.isSupplied c.constants = true := by
  cases i with
  | ldc k =>
    simp only [effect] at h
    split at h
    case h_4 text htext =>
      obtain ⟨s, hs⟩ := Constants.string?_isSome hv htext
      simp [Instr.isSupplied, htext, hs]
    case h_5 => cases h
    all_goals rename_i heq; simp [Instr.isSupplied, heq]
  | field access ref =>
    simp only [effect, bind_eq_ok, need_eq_ok] at h
    obtain ⟨r, hr, -⟩ := h
    simp [Instr.isSupplied, hr]
  | invoke kind ref =>
    simp only [effect, bind_eq_ok, need_eq_ok] at h
    obtain ⟨r, hr, sig, hsig, -⟩ := h
    simp [Instr.isSupplied, hr, hsig]
  | invokeStaticDyn cls name argc =>
    simp only [effect, bind_eq_ok, need_eq_ok] at h
    obtain ⟨s, hs, t, ht, -⟩ := h
    simp [Instr.isSupplied, hs, ht]
  | fieldDyn _ name | invokeDynamic name _ | new name | invokeSpecialDyn name _ =>
    simp only [effect, bind_eq_ok, need_eq_ok] at h
    obtain ⟨s, hs, -⟩ := h
    simp [Instr.isSupplied, hs]
  | _ => rfl

end CodeCheck

/-! ## Frames -/

/-- The frame will be in order when so many more values are on its stack. -/
structure Frame.Ready (f : Frame) (pending : Nat) : Prop where
  target : f.target.Sound
  place : ∃ k effects depths, f.target.method.check? f.constants = some k ∧ k.code = f.code ∧
    k.analyze = .ok (effects, depths) ∧ depths[f.ip]?.join = some (f.stack.length + pending) ∧
    k.maxLocals.toNat ≤ f.locals.size

/-- What is left of a frame at the offset `o` after an instruction with an effect, up to values that are pending. -/
structure Frame.Follows (f : Frame) (o : Nat) (e : Effect) (pending : Nat) (g : Frame) : Prop where
  target : g.target = f.target
  code : g.code = f.code
  locals : g.locals.size = f.locals.size
  ip : g.ip ∈ CodeCheck.successors o e
  stack : g.stack.length + pending = f.stack.length - e.pops + e.pushes
  keepResult : g.keepResult = f.keepResult

/-- What can follow an instruction with an effect. -/
def Control.Follows (f : Frame) (o : Nat) (e : Effect) : Control → Prop
  | .next g => f.Follows o e 0 g
  | .call caller callee => callee.Ready 0 ∧ f.Follows o e (if callee.keepResult then 1 else 0) caller
  | .ret g _ => g.keepResult = f.keepResult

/-- What can follow a step of a frame whose result is kept or not: frames that are ready, and a caller that waits. -/
def Control.Ready (keep : Bool) : Control → Prop
  | .next f => f.Ready 0 ∧ f.keepResult = keep
  | .call caller callee =>
    callee.Ready 0 ∧ caller.Ready (if callee.keepResult then 1 else 0) ∧ caller.keepResult = keep
  | .ret f _ => f.keepResult = keep

theorem LoadedMethod.check?_constants {m : LoadedMethod} {cs : Constants} {k : CodeCheck} (h : m.check? cs = some k) :
    k.constants = cs := by
  unfold check? at h
  split at h <;> cases h
  rfl

namespace Frame

/-- The place of a ready frame: the instruction there, its effect, and room for it. -/
theorem Ready.decoded {f : Frame} {n : Nat} (h : f.Ready n) :
    ∃ k i e, f.target.method.check? f.constants = some k ∧ k.maxLocals.toNat ≤ f.locals.size ∧
      Instr.at? f.code f.ip = some i ∧ k.effect f.ip i = .ok e ∧ e.pops ≤ f.stack.length + n ∧
      ∀ g : Frame, ∀ p, ({ f with ip := f.ip + i.size } : Frame).Follows f.ip e p g → n = 0 → g.Ready p := by
  obtain ⟨htarget, k, effects, depths, hk, hcode, hanalyze, hdepth, hlocals⟩ := h
  obtain ⟨hdecode, hstack⟩ := CodeCheck.analyze_eq_ok hanalyze
  obtain ⟨hfits, -⟩ := CodeCheck.checkStack_sound hstack
  obtain ⟨e, he, hpops, -, hsucc⟩ := hfits f.ip _ hdepth
  obtain ⟨i, hi, heffect⟩ := (CodeCheck.decode_sound hdecode).2 f.ip e (Option.join_eq_some_iff.1 he)
  refine ⟨k, i, e, hk, hlocals, by rw [← hcode]; exact hi, heffect, hpops, ?_⟩
  rintro g p ⟨hgt, hgc, hgl, hgip, hgs, -⟩ rfl
  have hconstants : g.constants = f.constants := by rw [constants, hgt]; rfl
  refine ⟨by rw [hgt]; exact htarget, k, effects, depths, ?_, by rw [hgc]; exact hcode, hanalyze, ?_, ?_⟩
  · rw [hgt, hconstants]
    exact hk
  · rw [hgs]
    exact hsucc _ hgip
  · rw [hgl]
    exact hlocals

end Frame

/-! ## Beginnings of calls -/

/-- A call that is done, or a frame that is ready. -/
def Invocation.Ready : Invocation → Prop
  | .done _ => True
  | .enter f => f.Ready 0

theorem le_size_initialLocals (receiver : Option Value) (args : List Value) (maxLocals : UInt16) :
    maxLocals.toNat ≤ (initialLocals receiver args maxLocals).size := by
  simp only [initialLocals, List.size_toArray, List.length_append, List.length_replicate]
  omega

/-- The frame of a sound method with code is ready to begin. -/
theorem Target.Sound.ready {t : Target} (ht : t.Sound) {maxLocals : UInt16} {code : Array UInt8}
    (hbody : t.method.body = .code maxLocals code) (receiver : Option Value) (args : List Value) :
    Frame.Ready { target := t, code, locals := initialLocals receiver args maxLocals } 0 := by
  have hk : t.method.check? t.cls.constants =
      some ⟨t.cls.constants, t.method.text, maxLocals, code, !t.method.ret.isVoid⟩ := by
    simp [LoadedMethod.check?, hbody]
  obtain ⟨⟨effects, depths⟩, hanalyze⟩ := ht.cls.verified.code _ ht.mem _ hk
  obtain ⟨-, hstack⟩ := CodeCheck.analyze_eq_ok hanalyze
  obtain ⟨-, hstart⟩ := CodeCheck.checkStack_sound hstack
  exact ⟨ht, _, effects, depths, hk, rfl, hanalyze, hstart, le_size_initialLocals receiver args maxLocals⟩

section Calls

variable {render : Value → Run String} (hrender : ∀ v, Safe (render v) fun _ => True)
include hrender

theorem Safe.beginCall {t : Target} (ht : t.Sound) (receiver : Option Value) (args : List Value) :
    Safe (ClassTree.beginCall render t receiver args) Invocation.Ready := by
  refine bind get fun m _ => ?_
  refine failIf rfl fun _ => failIf rfl fun _ => ?_
  refine bind (Q := fun _ => True) (ask (fun _ _ _ => trivial) fun _ _ => Heap.coerceAll_valid) fun args _ => ?_
  split
  · rename_i n _
    refine bind (deeper (n.safe_run hrender _ _)) fun v _ => ?_
    exact bind (Q := fun _ => True) (ask (fun _ _ _ => trivial) fun _ _ => Heap.finish_valid) fun _ _ => pure trivial
  · rename_i hbody
    exact pure (ht.ready hbody receiver args)
  · exact fail rfl

end Calls

/-! ## Instructions -/

theorem Instr.isTerminator_opcode (i : Instr) :
    i.opcode.isTerminator = match i with | .jump _ | .loop _ | .ret | .retVoid => true | _ => false := by
  cases i with
  | push k => cases k <;> rfl
  | field a _ => cases a <;> rfl
  | fieldDyn a _ => cases a <;> rfl
  | invoke k _ => cases k <;> rfl
  | arith op => cases op <;> rfl
  | widen w => cases w <;> rfl
  | compare op => cases op <;> rfl
  | _ => rfl

namespace Frame

variable {f g : Frame} {o n p : Nat} {e : Effect}

theorem safe_pop (h : 0 < f.stack.length) : Safe f.pop fun r => r.2 = { f with stack := f.stack.drop 1 } := by
  unfold pop
  split
  · rename_i heq
    exact .pure (by rw [heq]; rfl)
  · rename_i heq
    rw [heq] at h
    cases h

theorem safe_popArgs (h : n ≤ f.stack.length) :
    Safe (f.popArgs n) fun r => r.2 = { f with stack := f.stack.drop n } := by
  unfold popArgs
  rw [if_pos h]
  exact .pure rfl

theorem safe_operand {α : Type} {x : Option α} (h : x.isSome = true) (back : Nat) (reason : String) :
    Safe (f.operand x back reason) fun a => x = some a := by
  obtain ⟨a, rfl⟩ := Option.isSome_iff_exists.1 h
  exact .pure rfl

theorem Follows.push (h : f.Follows o e (p + 1) g) (v : Value) : f.Follows o e p (g.push v) := by
  refine ⟨h.target, h.code, h.locals, h.ip, ?_, h.keepResult⟩
  have := h.stack
  simp only [Frame.push, List.length_cons]
  omega

/-- What an instruction leaves that changes nothing but the stack, and after which control goes on. -/
theorem follows_stack {i : Instr} (hop : e.op = i.opcode) (hterm : i.opcode.isTerminator = false)
    (hip : f.ip = o + i.size) {stack : List Value} (hs : stack.length + p = f.stack.length - e.pops + e.pushes) :
    f.Follows o e p { f with stack } := by
  refine ⟨rfl, rfl, rfl, ?_, hs, rfl⟩
  rw [CodeCheck.successors, hop, hterm, hip, Instr.size]
  simp [Nat.add_assoc]

/-- Control goes on with so many values on the stack, and nothing else has changed. -/
def NextWith (f : Frame) (n : Nat) (c : Control) : Prop := ∃ stack, c = .next { f with stack } ∧ stack.length = n

theorem NextWith.follows {i : Instr} {c : Control} (h : f.NextWith n c) (hop : e.op = i.opcode)
    (hterm : i.opcode.isTerminator = false) (hip : f.ip = o + i.size) (hn : n = f.stack.length - e.pops + e.pushes) :
    Control.Follows f o e c := by
  obtain ⟨stack, rfl, hlen⟩ := h
  exact follows_stack hop hterm hip (hlen.trans hn)

theorem safe_unary {op : Heap → Value → Except RuntimeError Value}
    (hop : ∀ h v e, op h v = .error e → (Halt.failure e).isInvalid = false) (hs : 1 ≤ f.stack.length) :
    Safe (f.unary op) (f.NextWith f.stack.length) := by
  unfold unary
  split
  · rename_i v stack heq
    refine .bind (Q := fun _ => True) (.ask (fun _ _ _ => trivial) fun h => hop h v) fun w _ => ?_
    exact .pure ⟨w :: stack, rfl, by rw [heq]; rfl⟩
  · rename_i heq
    rw [heq] at hs
    cases hs

theorem safe_binary {op : Value → Value → Run Value} (hop : ∀ a b, Safe (op a b) fun _ => True)
    (hs : 2 ≤ f.stack.length) : Safe (f.binary op) (f.NextWith (f.stack.length - 1)) := by
  unfold binary
  split
  · rename_i b a stack heq
    exact .bind (hop a b) fun w _ => .pure ⟨w :: stack, rfl, by rw [heq]; rfl⟩
  · rename_i hne
    match hstack : f.stack with
    | [] => rw [hstack] at hs; cases hs
    | [_] => rw [hstack, List.length_singleton] at hs; omega
    | b :: a :: stack => exact absurd hstack (hne b a stack)

theorem safe_getField (slot? : LoadedClass → Option Nat) (name : String) (hs : 1 ≤ f.stack.length) :
    Safe (f.getField slot? name) (f.NextWith f.stack.length) := by
  refine .bind (safe_pop hs) fun r hr => .bind (.readField slot? r.1 name) fun w _ => .pure ?_
  refine ⟨w :: f.stack.drop 1, ?_, ?_⟩
  · rw [hr]
    rfl
  · rw [List.length_cons, List.length_drop]
    omega

theorem safe_putField (slot? : LoadedClass → Option Nat) (name : String) (hs : 2 ≤ f.stack.length) :
    Safe (f.putField slot? name) (f.NextWith (f.stack.length - 2)) := by
  refine .bind (safe_pop (by omega)) fun r hr => ?_
  obtain ⟨new, g⟩ := r
  obtain rfl : g = _ := hr
  refine .bind (safe_pop (by simp only [List.length_drop]; omega)) fun r hr => ?_
  obtain ⟨v, g⟩ := r
  obtain rfl : g = _ := hr
  refine .bind (.writeField slot? v name new) fun _ _ => .pure ⟨_, rfl, ?_⟩
  simp only [List.length_drop]
  omega

/-- The rule for a call with a receiver, which takes the arguments and then the receiver from the stack. -/
theorem safe_popCall {k : List Value × Frame → Value × Frame → Run Control} {Q : Control → Prop}
    (hs : n + 1 ≤ f.stack.length)
    (hk : ∀ args receiver g, Safe (k (args, g) (receiver, { f with stack := f.stack.drop (n + 1) })) Q) :
    Safe (f.popArgs n >>= fun r => r.2.pop >>= k r) Q := by
  refine .bind (safe_popArgs (by omega)) fun r hr => ?_
  obtain ⟨args, g⟩ := r
  obtain rfl : g = _ := hr
  refine .bind (safe_pop (by simp only [List.length_drop]; omega)) fun r hr => ?_
  obtain ⟨receiver, g⟩ := r
  obtain rfl : g = _ := hr
  simpa only [List.drop_drop] using hk args receiver _

section Dispatch

variable {render : Value → Run String} (hrender : ∀ v, Safe (render v) fun _ => True)
include hrender

/-- A call that is done or entered from what an instruction left. -/
theorem safe_dispatch {t : Target} (ht : t.Sound) {keep : Bool} (hg : f.Follows o e (if keep then 1 else 0) g)
    (receiver : Option Value) (args : List Value) :
    Safe (g.dispatch render t receiver args keep) (Control.Follows f o e) := by
  refine .bind (.beginCall hrender ht receiver args) fun i hi => ?_
  cases i with
  | done v =>
    refine .pure ?_
    cases keep with
    | true => exact hg.push v
    | false => exact hg
  | enter callee =>
    have hready : callee.Ready 0 := hi
    exact .pure ⟨⟨hready.target, hready.place⟩, hg⟩

theorem safe_invoke {c : CodeCheck} {kind : CallKind} {ref : UInt16} (hc : c.constants = f.constants)
    (he : c.effect o (.invoke kind ref) = .ok e) (hip : f.ip = o + (Instr.invoke kind ref).size)
    (hpops : e.pops ≤ f.stack.length) : Safe (f.invoke render kind ref) (Control.Follows f o e) := by
  simp only [CodeCheck.effect, bind_eq_ok, CodeCheck.need_eq_ok, hc] at he
  obtain ⟨r, hr, sig, hsig, he⟩ := he
  split at he
  · cases he
  have hterm := Instr.isTerminator_opcode (.invoke kind ref)
  have heff := Except.ok.inj he
  have htaken : e.pops = sig.params.length + (if kind = .static then 0 else 1) := by rw [← heff]
  refine .bind (safe_operand (by rw [hr]; rfl) _ _) fun r' hr' => ?_
  obtain rfl : r = r' := Option.some.inj (hr.symm.trans hr')
  refine .bind (safe_operand (by rw [hsig]; rfl) _ _) fun sig' hsig' => ?_
  obtain rfl : sig = sig' := Option.some.inj (hsig.symm.trans hsig')
  refine .bind (.link _ _) fun owner howner => ?_
  dsimp only
  -- What the call leaves of the stack is the same for all kinds; `taken` counts the receiver.
  have hleft : ∀ taken, taken = e.pops →
      f.Follows o e (if (!sig.ret.isVoid) = true then 1 else 0) { f with stack := f.stack.drop taken } := by
    rintro taken rfl
    refine follows_stack (by rw [← heff]) hterm hip ?_
    rw [List.length_drop, ← heff]
    cases sig.ret.isVoid <;> rfl
  cases kind with
  | virtual =>
    refine safe_popCall (by rw [htaken] at hpops; exact hpops) fun args receiver g => ?_
    refine .bind (.classOf _ _) fun cls hcls => ?_
    refine .bind (.need (fun t ht => LoadedClass.sound_of_findMethod? hcls ht) rfl) fun t ht => ?_
    exact safe_dispatch hrender ht (hleft _ htaken.symm) _ _
  | special =>
    refine .bind (.need (fun m hm => LoadedClass.mem_of_ownMethod? hm) rfl) fun m hm => ?_
    refine safe_popCall (by rw [htaken] at hpops; exact hpops) fun args receiver g => ?_
    refine .failIf rfl fun _ => ?_
    exact safe_dispatch hrender ⟨howner, hm⟩ (hleft _ htaken.symm) _ _
  | static =>
    refine .bind (.need (fun t ht => LoadedClass.sound_of_findMethod? howner (Option.mem_filter_iff.1 ht).1) rfl)
      fun t ht => ?_
    refine .bind (safe_popArgs (by rw [htaken] at hpops; exact hpops)) fun r hr => ?_
    obtain ⟨args, g⟩ := r
    obtain rfl : g = _ := hr
    exact safe_dispatch hrender ht (hleft _ htaken.symm) _ _

theorem safe_invokeDynamic {c : CodeCheck} {name : UInt16} {argc : UInt8} (hc : c.constants = f.constants)
    (he : c.effect o (.invokeDynamic name argc) = .ok e) (hip : f.ip = o + (Instr.invokeDynamic name argc).size)
    (hpops : e.pops ≤ f.stack.length) : Safe (f.invokeDynamic render name argc) (Control.Follows f o e) := by
  simp only [CodeCheck.effect, bind_eq_ok, CodeCheck.need_eq_ok, hc] at he
  obtain ⟨s, hs, he⟩ := he
  cases he
  refine .bind (safe_operand (by rw [hs]; rfl) _ _) fun _ _ => ?_
  refine safe_popCall hpops fun args receiver g => .bind (.virtualTarget _ _ _) fun t ht => ?_
  refine safe_dispatch hrender ht (follows_stack rfl rfl hip ?_) _ _
  simp

theorem safe_invokeSpecialDyn {c : CodeCheck} {cls : UInt16} {argc : UInt8} (hc : c.constants = f.constants)
    (he : c.effect o (.invokeSpecialDyn cls argc) = .ok e) (hip : f.ip = o + (Instr.invokeSpecialDyn cls argc).size)
    (hpops : e.pops ≤ f.stack.length) : Safe (f.invokeSpecialDyn render cls argc) (Control.Follows f o e) := by
  simp only [CodeCheck.effect, bind_eq_ok, CodeCheck.need_eq_ok, hc] at he
  obtain ⟨s, hs, he⟩ := he
  cases he
  refine .bind (safe_operand (by rw [hs]; rfl) _ _) fun _ _ => .bind (.link _ _) fun owner howner => ?_
  refine safe_popCall hpops fun args receiver g => .failIf rfl fun _ => ?_
  refine .bind (.constructorTarget howner args) fun t ht => ?_
  -- The result of the constructor is dropped, and null is pushed for it before the call.
  refine safe_dispatch hrender ht (follows_stack rfl rfl hip ?_) _ _
  simp

theorem safe_invokeStaticDyn {c : CodeCheck} {cls method : UInt16} {argc : UInt8} (hc : c.constants = f.constants)
    (he : c.effect o (.invokeStaticDyn cls method argc) = .ok e)
    (hip : f.ip = o + (Instr.invokeStaticDyn cls method argc).size) (hpops : e.pops ≤ f.stack.length) :
    Safe (f.invokeStaticDyn render cls method argc) (Control.Follows f o e) := by
  simp only [CodeCheck.effect, bind_eq_ok, CodeCheck.need_eq_ok, hc] at he
  obtain ⟨s, hs, s', hs', he⟩ := he
  cases he
  refine .bind (safe_operand (by rw [hs]; rfl) _ _) fun _ _ => ?_
  refine .bind (safe_operand (by rw [hs']; rfl) _ _) fun _ _ => .bind (.link _ _) fun owner howner => ?_
  refine .bind (safe_popArgs hpops) fun r hr => ?_
  obtain ⟨args, g⟩ := r
  obtain rfl : g = _ := hr
  refine .bind (.staticTarget howner _ args) fun t ht => ?_
  refine safe_dispatch hrender ht (follows_stack rfl rfl hip ?_) _ _
  simp

omit hrender in
/-- A constant that can be loaded has a value. -/
theorem exists_constant {k : UInt16} (h : (Instr.ldc k).isSupplied f.constants = true) :
    ∃ v, f.constant k = .ok v := by
  simp only [Instr.isSupplied] at h
  split at h
  case h_4 text htext =>
    obtain ⟨s, hs⟩ := Option.isSome_iff_exists.1 h
    exact ⟨.str s, by simp only [constant, htext, hs]⟩
  case h_5 => cases h
  all_goals rename_i heq; exact ⟨_, by simp only [constant, heq]; rfl⟩

theorem safe_concat (a b : Value) : Safe (concat render a b) fun _ => True :=
  .bind (hrender a) fun _ _ => .bind (hrender b) fun _ _ => .pure trivial

theorem safe_arithmetic (op : ArithOp) (a b : Value) : Safe (arithmetic render op a b) fun _ => True := by
  unfold arithmetic
  split
  · exact safe_concat hrender _ _
  · exact safe_concat hrender _ _
  · exact .ask (fun _ _ _ => trivial) fun _ _ => Heap.arith_valid

/-- An instruction that verification accepted, done with the values that it takes, is safe, and what follows it is as its
effect says. -/
theorem safe_exec {c : CodeCheck} {i : Instr} (hc : c.constants = f.constants)
    (hv : f.constants.verify = .ok ()) (he : c.effect o i = .ok e) (hip : f.ip = o + i.size)
    (hpops : e.pops ≤ f.stack.length) (hlocals : c.maxLocals.toNat ≤ f.locals.size) :
    Safe (f.exec render i) (Control.Follows f o e) := by
  have hterm := Instr.isTerminator_opcode i
  have hsupplied := CodeCheck.isSupplied_of_effect (hc ▸ hv) he
  rw [hc] at hsupplied
  have hbinary : ∀ {n : Nat}, 2 ≤ n → n - 1 = n - 2 + 1 := by omega
  cases i with
  | ldc k =>
    obtain ⟨v, hconstant⟩ := exists_constant hsupplied
    have hop : e.op = Opcode.ldc ∧ e.pops = 0 ∧ e.pushes = 1 := by
      simp only [CodeCheck.effect] at he
      split at he <;> first | (cases he; exact ⟨rfl, rfl, rfl⟩) | cases he
    rw [exec, hconstant]
    exact .pure (follows_stack (i := .ldc k) hop.1 hterm hip (by rw [hop.2.1, hop.2.2]; rfl))
  | push k =>
    cases he
    exact .pure (follows_stack rfl hterm hip rfl)
  | pop =>
    cases he
    refine .bind (safe_pop hpops) fun r hr => .pure ?_
    rw [hr]
    exact follows_stack rfl hterm hip (by simp)
  | dup =>
    cases he
    rw [exec]
    split
    · exact .pure (follows_stack rfl hterm hip (congrArg (· + 1) (Nat.sub_add_cancel hpops).symm))
    · rename_i heq
      rw [heq] at hpops
      cases hpops
  | dupX1 =>
    cases he
    rw [exec]
    split
    · rename_i heq
      exact .pure (follows_stack rfl hterm hip (by rw [heq]; simp))
    · rename_i hne
      match hstack : f.stack with
      | [] => rw [hstack] at hpops; cases hpops
      | [_] => rw [hstack] at hpops; exact absurd hpops (by simp)
      | b :: a :: stack => exact absurd hstack (hne b a stack)
  | load slot =>
    simp only [CodeCheck.effect] at he
    split at he
    · rename_i hslot
      cases he
      have hlt : slot.toNat < f.locals.size := Nat.lt_of_lt_of_le (UInt16.lt_iff_toNat_lt.1 hslot) hlocals
      rw [exec, Array.getElem?_eq_getElem hlt]
      exact .pure (follows_stack rfl hterm hip rfl)
    · cases he
  | store slot =>
    simp only [CodeCheck.effect] at he
    split at he
    · rename_i hslot
      cases he
      have hlt : slot.toNat < f.locals.size := Nat.lt_of_lt_of_le (UInt16.lt_iff_toNat_lt.1 hslot) hlocals
      rw [exec]
      split
      · rename_i v stack heq
        rw [if_pos hlt]
        have hf : f.Follows o ⟨(Instr.store slot).opcode, 1, 0, none⟩ 0 { f with stack } :=
          follows_stack rfl hterm hip (by rw [heq]; simp)
        exact .pure ⟨hf.target, hf.code, by simp, hf.ip, hf.stack, rfl⟩
      · rename_i heq
        rw [heq] at hpops
        cases hpops
    · cases he
  | field access ref =>
    simp only [CodeCheck.effect, bind_eq_ok] at he
    obtain ⟨_, -, he⟩ := he
    refine .bind (safe_operand hsupplied _ _) fun r hr => .bind (.link _ _) fun _ _ => ?_
    cases access with
    | get =>
      cases he
      exact .mono (safe_getField _ _ hpops) fun _ hn => hn.follows rfl hterm hip (Nat.sub_add_cancel hpops).symm
    | put =>
      cases he
      exact .mono (safe_putField _ _ hpops) fun _ hn => hn.follows rfl hterm hip rfl
  | fieldDyn access name =>
    simp only [CodeCheck.effect, bind_eq_ok] at he
    obtain ⟨_, -, he⟩ := he
    refine .bind (safe_operand hsupplied _ _) fun r hr => ?_
    cases access with
    | get =>
      cases he
      exact .mono (safe_getField _ _ hpops) fun _ hn => hn.follows rfl hterm hip (Nat.sub_add_cancel hpops).symm
    | put =>
      cases he
      exact .mono (safe_putField _ _ hpops) fun _ hn => hn.follows rfl hterm hip rfl
  | new cls =>
    simp only [CodeCheck.effect, bind_eq_ok] at he
    obtain ⟨_, -, he⟩ := he
    cases he
    refine .bind (safe_operand hsupplied _ _) fun r hr => .bind (.link _ _) fun k hk => ?_
    exact .failIf rfl fun _ => .bind (.alloc hk) fun v _ => .pure (follows_stack rfl hterm hip rfl)
  | invoke kind ref => exact safe_invoke hrender hc he hip hpops
  | invokeDynamic name argc => exact safe_invokeDynamic hrender hc he hip hpops
  | invokeSpecialDyn cls argc => exact safe_invokeSpecialDyn hrender hc he hip hpops
  | invokeStaticDyn cls method argc => exact safe_invokeStaticDyn hrender hc he hip hpops
  | arith op =>
    cases he
    exact .mono (safe_binary (safe_arithmetic hrender op) hpops) fun _ hn => hn.follows rfl hterm hip (hbinary hpops)
  | concat =>
    cases he
    exact .mono (safe_binary (safe_concat hrender) hpops) fun _ hn => hn.follows rfl hterm hip (hbinary hpops)
  | compare op =>
    cases he
    exact .mono (safe_binary (fun _ _ => .ask (fun _ _ _ => trivial) fun _ _ => Heap.compare_valid) hpops)
      fun _ hn => hn.follows rfl hterm hip (hbinary hpops)
  | neg =>
    cases he
    exact .mono (safe_unary (fun _ _ _ => Heap.negate_valid) hpops)
      fun _ hn => hn.follows rfl hterm hip (Nat.sub_add_cancel hpops).symm
  | not =>
    cases he
    exact .mono (safe_unary (fun _ _ _ => Heap.complement_valid) hpops)
      fun _ hn => hn.follows rfl hterm hip (Nat.sub_add_cancel hpops).symm
  | widen w =>
    cases he
    exact .mono (safe_unary (fun _ _ _ => Heap.widen_valid) hpops)
      fun _ hn => hn.follows rfl hterm hip (Nat.sub_add_cancel hpops).symm
  | jump distance =>
    cases he
    exact .pure ⟨rfl, rfl, rfl, by simp [CodeCheck.successors, hip], rfl, rfl⟩
  | jumpIfFalse distance =>
    cases he
    refine .bind (safe_pop hpops) fun r hr => ?_
    obtain ⟨v, g⟩ := r
    obtain rfl : g = _ := hr
    refine .bind (Q := fun _ => True) (.ask (fun _ _ _ => trivial) fun _ _ => Heap.truth_valid) fun b _ => ?_
    cases b with
    | true => exact .pure (follows_stack rfl hterm hip (by simp))
    | false => exact .pure ⟨rfl, rfl, rfl, by simp [CodeCheck.successors, hip], by simp, rfl⟩
  | loop distance =>
    simp only [CodeCheck.effect] at he
    split at he
    · rename_i hd
      cases he
      rw [exec, if_pos (by rw [hip]; exact hd)]
      exact .pure ⟨rfl, rfl, rfl, by simp [CodeCheck.successors, hip], rfl, rfl⟩
    · cases he
  | ret =>
    simp only [CodeCheck.effect] at he
    split at he
    · cases he
      refine .bind (safe_pop hpops) fun r hr => .pure ?_
      rw [hr]
      exact rfl
    · cases he
  | retVoid => exact .pure rfl

/-- A step of a frame that is ready is safe, and what follows it is ready. -/
theorem Ready.step (h : f.Ready 0) : Safe (f.step render) (Control.Ready f.keepResult) := by
  obtain ⟨k, i, e, hk, hlocals, hi, heffect, hpops, hnext⟩ := h.decoded
  have hconstants : f.constants.verify = .ok () := h.target.cls.verified.constants
  rw [Frame.step, fetch_eq_ok hi]
  refine .mono (safe_exec (f := { f with ip := f.ip + i.size }) hrender (LoadedMethod.check?_constants hk)
    hconstants heffect rfl hpops hlocals) fun c hc => ?_
  cases c with
  | next g => exact ⟨hnext g 0 hc rfl, hc.keepResult⟩
  | call caller callee => exact ⟨hc.1, hnext caller _ hc.2 rfl, hc.2.keepResult⟩
  | ret g v => exact hc

end Dispatch

end Frame

end ClassTree
