import ClassTree.Proofs.Compile.Typed
import ClassTree.Proofs.Scope.Extended

/-!
# Typing where more variables are visible

Whether an expression has a type does not depend on the name that findings give to the place where it stands
(`Context.renamed`), and it keeps its type where more variables are visible, if each of them has the type of the field that it
hides (`Context.typeOf_extends`).
-/

namespace ClassTree

namespace Context

/-- The same place, with another name in findings. -/
def renamed (c : Context) (member : String) : Context := { c with member }

variable {c : Context} {member : String}

theorem requireInstance_renamed {what : String} {u : Unit} (h : c.requireInstance what = .ok u) :
    (c.renamed member).requireInstance what = .ok u := by
  rw [requireInstance_eq_ok] at h ⊢
  exact h

theorem classEntry_renamed {n : Name} {e : ClassEntry} (h : c.classEntry n = .ok e) :
    (c.renamed member).classEntry n = .ok e := by
  rw [classEntry_eq_ok] at h ⊢
  exact h

theorem receiverClass_renamed {t : Ty} {name : String} {e : ClassEntry} (h : c.receiverClass t name = .ok e) :
    (c.renamed member).receiverClass t name = .ok e := by
  obtain ⟨n, rfl, hn⟩ := receiverClass_eq_ok h
  exact classEntry_eq_ok.2 hn

theorem field_renamed {t : Ty} {name : String} {f : FieldEntry} (h : c.field t name = .ok f) :
    (c.renamed member).field t name = .ok f := by
  unfold field at h ⊢
  obtain ⟨e, he, h⟩ := bind_eq_ok.1 h
  refine bind_eq_ok.2 ⟨e, receiverClass_renamed he, ?_⟩
  split at h
  · rename_i hf
    rw [show (c.renamed member).registry = c.registry from rfl, hf]
    exact h
  · cases h

theorem pick_renamed {name : String} {args : List Ty} {choice : Registry.Choice} {m : MethodEntry}
    (h : c.pick name args choice = .ok m) : (c.renamed member).pick name args choice = .ok m := by
  rw [pick_eq_ok h]
  rfl

theorem methodsNamed_renamed {e : ClassEntry} {name : String} {ms : List MethodEntry}
    (h : c.methodsNamed e name = .ok ms) : (c.renamed member).methodsNamed e name = .ok ms := by
  unfold methodsNamed at h ⊢
  rw [show (c.renamed member).registry = c.registry from rfl]
  split at h
  · cases h
  · exact h

theorem method_renamed {t : Ty} {name : String} {args : List Ty} {m : MethodEntry} (h : c.method t name args = .ok m) :
    (c.renamed member).method t name args = .ok m := by
  unfold method at h ⊢
  obtain ⟨e, he, h⟩ := bind_eq_ok.1 h
  obtain ⟨ms, hms, h⟩ := bind_eq_ok.1 h
  exact bind_eq_ok.2 ⟨e, receiverClass_renamed he, bind_eq_ok.2 ⟨ms, methodsNamed_renamed hms, pick_renamed h⟩⟩

theorem staticMethod_renamed {cls : Name} {name : String} {args : List Ty} {m : MethodEntry}
    (h : c.staticMethod cls name args = .ok m) : (c.renamed member).staticMethod cls name args = .ok m := by
  unfold staticMethod at h ⊢
  obtain ⟨e, he, h⟩ := bind_eq_ok.1 h
  obtain ⟨ms, hms, h⟩ := bind_eq_ok.1 h
  refine bind_eq_ok.2 ⟨e, classEntry_renamed he, bind_eq_ok.2 ⟨ms, methodsNamed_renamed hms, ?_⟩⟩
  split at h
  · cases h
  · exact pick_renamed h

theorem outerInstance_renamed {e : ClassEntry} {source : OuterSource} (h : c.outerInstance e = .ok source) :
    (c.renamed member).outerInstance e = .ok source := by
  unfold outerInstance at h ⊢
  cases henclosing : e.enclosing with
  | none => rw [henclosing] at h; cases h
  | some enclosing =>
    rw [henclosing] at h
    dsimp only [renamed] at h ⊢
    repeat' split at h
    all_goals first | (cases h; done) | simp_all

theorem constructor_renamed {cls : Name} {args : List Ty} {m : MethodEntry} (h : c.constructor cls args = .ok m) :
    (c.renamed member).constructor cls args = .ok m := by
  unfold constructor at h ⊢
  obtain ⟨e, he, h⟩ := bind_eq_ok.1 h
  refine bind_eq_ok.2 ⟨e, classEntry_renamed he, ?_⟩
  dsimp only at h ⊢
  cases habstract : e.isAbstract with
  | true => rw [if_pos habstract] at h; cases h
  | false =>
    rw [if_neg (by simp [habstract])] at h ⊢
    cases hinner : e.isInner with
    | true =>
      rw [if_pos hinner] at h
      rw [if_pos rfl]
      obtain ⟨source, hsource, h⟩ := bind_eq_ok.1 h
      exact bind_eq_ok.2 ⟨source, outerInstance_renamed hsource, pick_renamed h⟩
    | false =>
      rw [if_neg (by simp [hinner])] at h
      rw [if_neg Bool.false_ne_true]
      exact pick_renamed h

theorem binary_renamed {op : BinaryOp} {l r : Ty} {bt : BinaryTyping} (h : c.binary op l r = .ok bt) :
    (c.renamed member).binary op l r = .ok bt := by
  unfold binary at h ⊢
  dsimp only at h ⊢
  repeat' split at h
  all_goals first | (cases h; done) | simp_all

theorem unary_renamed {op : UnaryOp} {t t' : Ty} (h : c.unary op t = .ok t') : (c.renamed member).unary op t = .ok t' := by
  have hfits : ∀ {b : Bool} {d d' : Diagnostic}, (if b = true then Except.ok t else .error d) = .ok t' →
      (if b = true then Except.ok t else .error d') = .ok t' := by
    intro b d d' h
    cases b
    · cases h
    · exact h
  exact hfits h

theorem outerType_renamed {t : Ty} (h : c.outerType = .ok t) : (c.renamed member).outerType = .ok t := by
  obtain ⟨hstatic, outer, henclosing, hinner, rfl⟩ := outerType_eq_ok h
  unfold outerType
  refine bind_eq_ok.2 ⟨(), requireInstance_eq_ok.2 hstatic, ?_⟩
  rw [show (c.renamed member).cls = c.cls from rfl, henclosing, hinner]
  rfl

/-! ## Expressions -/

theorem requireAssignable_renamed {target : Expr} {u : Unit} (h : c.requireAssignable target = .ok u) :
    (c.renamed member).requireAssignable target = .ok u := by
  unfold requireAssignable at h ⊢
  split at h
  · rename_i hassignable
    rw [if_pos hassignable]
  · cases h

theorem expectAssignable_renamed {source target : Ty} {u : Unit} (h : c.expectAssignable source target = .ok u) :
    (c.renamed member).expectAssignable source target = .ok u := by
  unfold expectAssignable at h ⊢
  rw [show (c.renamed member).registry = c.registry from rfl]
  split at h
  · rename_i hassignable
    rw [if_pos hassignable]
  · cases h

theorem typeOf_var_of_lookup? {s : Scope} {x : String} {v : Local} (h : s.lookup? x = some v) :
    c.typeOf s (.var x) = .ok v.ty := by
  rw [typeOf, lookupVar, h]
  rfl

theorem typeOf_var_of_field {s : Scope} {x : String} {f : FieldEntry} (h : s.lookup? x = none)
    (hstatic : c.isStatic = false) (hf : c.registry.findField? c.cls.name x = some f) : c.typeOf s (.var x) = .ok f.ty := by
  rw [typeOf, lookupVar, h]
  dsimp only
  rw [hf]
  dsimp only
  rw [requireInstance, hstatic]
  rfl

section Extends

variable {s s' : Scope} {more : List Local}

/-- All names keep the types that they have by themselves. -/
def KeepsNames (c : Context) (member : String) (s s' : Scope) : Prop :=
  ∀ x t, c.typeOf s (.var x) = .ok t → (c.renamed member).typeOf s' (.var x) = .ok t

/-- Names keep their types also if a variable that has the type of a field takes the place of the field. -/
theorem keepsNames_of_extends (h : s.Extends more s')
    (hfields : ∀ v ∈ more, ∀ f, c.registry.findField? c.cls.name v.name = some f → f.ty = v.ty) :
    c.KeepsNames member s s' := by
  intro x t ht
  have hview := h.lookup x
  obtain ⟨target, htarget, rfl⟩ := typeOf_var_eq_ok ht
  rcases lookupVar_eq_ok htarget with ⟨v, rfl, hv⟩ | ⟨f, rfl, hnone, hstatic, hf⟩
  · rw [hv] at hview
    obtain ⟨v', hv', hsame⟩ := Option.map_eq_some_iff.1 hview
    rw [typeOf_var_of_lookup? hv']
    exact congrArg (Except.ok ·.1) hsame
  · rw [hnone, Option.none_or] at hview
    cases hmore : more.find? (·.name = x) with
    | none =>
      rw [hmore, Option.map_none, Option.map_eq_none_iff] at hview
      exact typeOf_var_of_field hview hstatic hf
    | some w =>
      rw [hmore] at hview
      obtain ⟨w', hw', hsame⟩ := Option.map_eq_some_iff.1 hview
      have hwx : w.name = x := by simpa using List.find?_some hmore
      have hty : f.ty = w.ty := hfields w (List.mem_of_find?_eq_some hmore) f (by rw [hwx]; exact hf)
      rw [typeOf_var_of_lookup? hw']
      have hsame : w'.ty = w.ty := congrArg Prod.fst hsame
      exact congrArg Except.ok (hsame.trans hty.symm)

mutual

/-- An expression keeps its type where all names do. -/
theorem typeOf_extends (hvar : c.KeepsNames member s s') : ∀ {e : Expr} {t : Ty}, c.typeOf s e = .ok t → (c.renamed member).typeOf s' e = .ok t
  | .lit l, _, h => by
    rw [typeOf] at h ⊢
    exact h
  | .var x, t, h => hvar x t h
  | .this, _, h => by
    rw [typeOf] at h ⊢
    obtain ⟨u, hu, h⟩ := bind_eq_ok.1 h
    exact bind_eq_ok.2 ⟨u, requireInstance_renamed hu, h⟩
  | .outer, _, h => by
    rw [typeOf] at h ⊢
    exact outerType_renamed h
  | .field target name, _, h => by
    rw [typeOf] at h ⊢
    obtain ⟨t, ht, h⟩ := bind_eq_ok.1 h
    obtain ⟨f, hf, h⟩ := bind_eq_ok.1 h
    exact bind_eq_ok.2 ⟨t, typeOf_extends hvar ht, bind_eq_ok.2 ⟨f, field_renamed hf, h⟩⟩
  | .assign target value, _, h => by
    rw [typeOf] at h ⊢
    obtain ⟨u, hu, h⟩ := bind_eq_ok.1 h
    obtain ⟨t, ht, h⟩ := bind_eq_ok.1 h
    obtain ⟨v, hv, h⟩ := bind_eq_ok.1 h
    obtain ⟨w, hw, h⟩ := bind_eq_ok.1 h
    exact bind_eq_ok.2 ⟨u, requireAssignable_renamed hu, bind_eq_ok.2 ⟨t, typeOf_extends hvar ht,
      bind_eq_ok.2 ⟨v, typeOf_extends hvar hv, bind_eq_ok.2 ⟨w, expectAssignable_renamed hw, h⟩⟩⟩⟩
  | .call receiver method args, _, h => by
    rw [typeOf] at h ⊢
    obtain ⟨t, ht, h⟩ := bind_eq_ok.1 h
    obtain ⟨ts, hts, h⟩ := bind_eq_ok.1 h
    obtain ⟨m, hm, h⟩ := bind_eq_ok.1 h
    exact bind_eq_ok.2 ⟨t, typeOf_extends hvar ht, bind_eq_ok.2 ⟨ts, typesOf_extends hvar hts,
      bind_eq_ok.2 ⟨m, method_renamed hm, h⟩⟩⟩
  | .staticCall cls method args, _, h => by
    rw [typeOf] at h ⊢
    obtain ⟨ts, hts, h⟩ := bind_eq_ok.1 h
    obtain ⟨m, hm, h⟩ := bind_eq_ok.1 h
    exact bind_eq_ok.2 ⟨ts, typesOf_extends hvar hts, bind_eq_ok.2 ⟨m, staticMethod_renamed hm, h⟩⟩
  | .new cls args, _, h => by
    rw [typeOf] at h ⊢
    obtain ⟨ts, hts, h⟩ := bind_eq_ok.1 h
    obtain ⟨k, hk, h⟩ := bind_eq_ok.1 h
    exact bind_eq_ok.2 ⟨ts, typesOf_extends hvar hts, bind_eq_ok.2 ⟨k, constructor_renamed hk, h⟩⟩
  | .binary op left right, _, h => by
    rw [typeOf] at h ⊢
    obtain ⟨l, hl, h⟩ := bind_eq_ok.1 h
    obtain ⟨r, hr, h⟩ := bind_eq_ok.1 h
    obtain ⟨bt, hbt, h⟩ := bind_eq_ok.1 h
    exact bind_eq_ok.2 ⟨l, typeOf_extends hvar hl, bind_eq_ok.2 ⟨r, typeOf_extends hvar hr,
      bind_eq_ok.2 ⟨bt, binary_renamed hbt, h⟩⟩⟩
  | .unary op operand, _, h => by
    rw [typeOf] at h ⊢
    obtain ⟨t, ht, h⟩ := bind_eq_ok.1 h
    exact bind_eq_ok.2 ⟨t, typeOf_extends hvar ht, unary_renamed h⟩

theorem typesOf_extends (hvar : c.KeepsNames member s s') : ∀ {es : List Expr} {ts : List Ty}, c.typesOf s es = .ok ts →
    (c.renamed member).typesOf s' es = .ok ts
  | [], _, h => by
    rw [typesOf] at h ⊢
    exact h
  | e :: rest, _, h => by
    rw [typesOf] at h ⊢
    obtain ⟨t, ht, h⟩ := bind_eq_ok.1 h
    obtain ⟨ts, hts, h⟩ := bind_eq_ok.1 h
    exact bind_eq_ok.2 ⟨t, typeOf_extends hvar ht, bind_eq_ok.2 ⟨ts, typesOf_extends hvar hts, h⟩⟩

end

end Extends

end Context

end ClassTree
