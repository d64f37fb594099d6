import ClassTree.Proofs.Outcome
import ClassTree.Typing

/-!
# What typing chooses

The fields, methods and constructors that the types of an expression choose are members of registered classes, and those
that are called accept the arguments (`Registry.Passes`).
-/

namespace ClassTree

namespace Registry

variable {r : Registry} {n : Name} {e : ClassEntry}

theorem get?_eq_some (h : r.get? n = some e) : e ∈ r.classes ∧ e.name = n :=
  ⟨List.mem_of_find?_eq_some h, by simpa using List.find?_some h⟩

theorem mem_of_mem_chainFrom {fuel : Nat} {seen : List Name} (h : e ∈ r.chainFrom fuel seen n) : e ∈ r.classes := by
  induction fuel generalizing seen n with
  | zero => cases h
  | succ fuel ih =>
    rw [chainFrom] at h
    split at h
    · cases h
    · rename_i entry hentry
      split at h
      · cases h
      · rcases List.mem_cons.1 h with rfl | h
        · exact (get?_eq_some hentry).1
        · split at h
          · cases h
          · exact ih h

theorem mem_of_mem_chain (h : e ∈ r.chain n) : e ∈ r.classes := mem_of_mem_chainFrom h

/-! ## Members -/

theorem exists_of_findField? {name : String} {f : FieldEntry} (h : r.findField? n name = some f) :
    ∃ e ∈ r.chain n, f ∈ e.fields ∧ f.name = name := by
  obtain ⟨e, he, hf⟩ := List.exists_of_findSome?_eq_some h
  exact ⟨e, he, List.mem_of_find?_eq_some hf, by simpa using List.find?_some hf⟩

theorem mem_of_mem_foldl_addVisible {ms found : List MethodEntry} {m : MethodEntry}
    (h : m ∈ ms.foldl addVisible found) : m ∈ found ∨ m ∈ ms := by
  induction ms generalizing found with
  | nil => exact .inl h
  | cons x ms ih =>
    rcases ih h with hfound | hms
    · unfold addVisible at hfound
      split at hfound
      · exact .inl hfound
      · rcases List.mem_append.1 hfound with hfound | hx
        · exact .inl hfound
        · exact .inr (by simp [List.mem_singleton.1 hx])
    · exact .inr (List.mem_cons_of_mem _ hms)

theorem exists_of_mem_findMethods {name : String} {m : MethodEntry} (h : m ∈ r.findMethods n name) :
    ∃ e ∈ r.chain n, m ∈ e.methods ∧ m.name = name := by
  rcases mem_of_mem_foldl_addVisible h with hnil | hm
  · cases hnil
  · obtain ⟨e, he, hm⟩ := List.mem_flatMap.1 hm
    obtain ⟨hm, hname⟩ := List.mem_filter.1 hm
    exact ⟨e, he, hm, by simpa using hname⟩

/-! ## Arguments -/

/-- Arguments of these types may be passed to these parameters. -/
def Passes (r : Registry) (args params : List Ty) : Prop := List.Forall₂ (fun a p => r.isAssignable a p = true) args params

theorem isVoid_of_isAssignable {source target : Ty} (h : r.isAssignable source target = true) :
    source.isVoid = false ∧ target.isVoid = false := by
  unfold isAssignable conversionCost at h
  split at h
  · cases h
  · rename_i hvoid
    rwa [Bool.not_eq_true, Bool.or_eq_false_iff] at hvoid

theorem Passes.length_eq {args params : List Ty} (h : r.Passes args params) : args.length = params.length :=
  List.Forall₂.length_eq h

theorem Passes.isVoid {args params : List Ty} (h : r.Passes args params) : ∀ p ∈ params, p.isVoid = false := by
  intro p hp
  obtain ⟨a, -, ha⟩ := exists_left h hp
  exact (isVoid_of_isAssignable ha).2

theorem passes_of_callCost {args params : List Ty} {cost : UInt32} (h : r.callCost args params = some cost) :
    r.Passes args params := by
  have hfold : ∀ (args params : List Ty) (total cost : UInt32), params.length = args.length →
      (args.zip params).foldlM (fun total x => (r.conversionCost x.1 x.2).map (total + .ofNat ·)) total = some cost →
      r.Passes args params := by
    intro args
    induction args with
    | nil =>
      intro params total cost hlen _
      rw [List.length_eq_zero_iff.1 hlen]
      exact .nil
    | cons a args ih =>
      intro params total cost hlen hcost
      cases params with
      | nil => cases hlen
      | cons p params =>
        rw [List.zip_cons_cons, List.foldlM_cons] at hcost
        obtain ⟨next, hnext, hrest⟩ := Option.bind_eq_some_iff.1 hcost
        obtain ⟨first, hfirst, -⟩ := Option.map_eq_some_iff.1 hnext
        refine .cons ?_ (ih params next cost (by simpa using hlen) hrest)
        rw [isAssignable, hfirst]
        rfl
  unfold callCost at h
  split at h
  · rename_i hlen
    exact hfold args params 0 cost hlen h
  · cases h

theorem select_eq_found {ms : List MethodEntry} {args : List Ty} {m : MethodEntry} (h : r.select ms args = .found m) :
    m ∈ ms ∧ r.Passes args m.params := by
  simp only [select] at h
  split at h
  · cases h
  · split at h
    · rename_i m' hone
      cases h
      have hm : m ∈ [m] := List.mem_singleton_self m
      rw [← hone, List.mem_map] at hm
      obtain ⟨⟨cost, m'⟩, hm', rfl⟩ := hm
      obtain ⟨x, hx, hcost⟩ := List.mem_filterMap.1 (List.mem_of_mem_filter hm')
      obtain ⟨cost', hcost', heq⟩ := Option.map_eq_some_iff.1 hcost
      cases heq
      exact ⟨hx, passes_of_callCost hcost'⟩
    · cases h

end Registry

namespace Context

variable {c : Context} {name : String} {args : List Ty} {m : MethodEntry}

theorem classEntry_eq_ok {n : Name} {e : ClassEntry} : c.classEntry n = .ok e ↔ c.registry.get? n = some e := by
  unfold classEntry
  split <;> simp [*]

theorem requireInstance_eq_ok {what : String} {u : Unit} : c.requireInstance what = .ok u ↔ c.isStatic = false := by
  unfold requireInstance
  split <;> simp [*]

theorem lookupVar_eq_ok {scope : Scope} {target : VarTarget} (h : c.lookupVar scope name = .ok target) :
    (∃ v, target = .slot v ∧ scope.lookup? name = some v) ∨
      ∃ f, target = .field f ∧ scope.lookup? name = none ∧ c.isStatic = false ∧
        c.registry.findField? c.cls.name name = some f := by
  unfold lookupVar at h
  split at h
  · rename_i v hv
    cases h
    exact .inl ⟨v, rfl, hv⟩
  · rename_i hnone
    split at h
    · rename_i f hf
      rw [bind_eq_ok] at h
      obtain ⟨_, hinstance, h⟩ := h
      cases h
      exact .inr ⟨f, rfl, hnone, requireInstance_eq_ok.1 hinstance, hf⟩
    · cases h

theorem receiverClass_eq_ok {t : Ty} {e : ClassEntry} (h : c.receiverClass t name = .ok e) :
    ∃ n, t = .ref n ∧ c.registry.get? n = some e := by
  unfold receiverClass at h
  split at h
  · rename_i n
    exact ⟨n, rfl, classEntry_eq_ok.1 h⟩
  · cases h

theorem field_eq_ok {t : Ty} {f : FieldEntry} (h : c.field t name = .ok f) :
    ∃ n e, t = .ref n ∧ c.registry.get? n = some e ∧ c.registry.findField? n name = some f := by
  unfold field at h
  obtain ⟨e, he, hfound⟩ := bind_eq_ok.1 h
  obtain ⟨n, rfl, hget⟩ := receiverClass_eq_ok he
  rw [(Registry.get?_eq_some hget).2] at hfound
  split at hfound
  · rename_i hf
    cases hfound
    exact ⟨n, e, rfl, hget, hf⟩
  · cases hfound

theorem pick_eq_ok {choice : Registry.Choice} (h : c.pick name args choice = .ok m) : choice = .found m := by
  cases choice <;> cases h
  rfl

theorem methodsNamed_eq_ok {e : ClassEntry} {ms : List MethodEntry} (h : c.methodsNamed e name = .ok ms) :
    ms = c.registry.findMethods e.name name := by
  unfold methodsNamed at h
  split at h
  · cases h
  · cases h
    rfl

theorem method_eq_ok {t : Ty} (h : c.method t name args = .ok m) :
    ∃ n e, t = .ref n ∧ c.registry.get? n = some e ∧ m ∈ c.registry.findMethods n name ∧
      c.registry.Passes args m.params := by
  unfold method at h
  obtain ⟨e, he, hnamed⟩ := bind_eq_ok.1 h
  obtain ⟨ms, hms, hpick⟩ := bind_eq_ok.1 hnamed
  obtain ⟨n, rfl, hget⟩ := receiverClass_eq_ok he
  rw [methodsNamed_eq_ok hms, (Registry.get?_eq_some hget).2] at hpick
  obtain ⟨hm, hpasses⟩ := Registry.select_eq_found (pick_eq_ok hpick)
  exact ⟨n, e, rfl, hget, hm, hpasses⟩

theorem staticMethod_eq_ok {cls : Name} (h : c.staticMethod cls name args = .ok m) :
    m ∈ c.registry.findMethods cls name ∧ m.isStatic = true ∧ c.registry.Passes args m.params := by
  unfold staticMethod at h
  obtain ⟨e, he, h⟩ := bind_eq_ok.1 h
  obtain ⟨ms, hms, h⟩ := bind_eq_ok.1 h
  rw [methodsNamed_eq_ok hms, (Registry.get?_eq_some (classEntry_eq_ok.1 he)).2] at h
  split at h
  · cases h
  · obtain ⟨hm, hpasses⟩ := Registry.select_eq_found (pick_eq_ok h)
    obtain ⟨hm, hstatic⟩ := List.mem_filter.1 hm
    exact ⟨hm, hstatic, hpasses⟩

theorem resolveConstructor_eq_found {cls : Name} (h : c.registry.resolveConstructor cls args = .found m) :
    ∃ e, c.registry.get? cls = some e ∧ m ∈ e.constructors ∧ c.registry.Passes args m.params := by
  unfold Registry.resolveConstructor at h
  split at h
  · rename_i e he
    obtain ⟨hm, hpasses⟩ := Registry.select_eq_found h
    exact ⟨e, he, hm, hpasses⟩
  · cases h

theorem constructor_eq_ok {cls : Name} (h : c.constructor cls args = .ok m) :
    ∃ e, c.registry.get? cls = some e ∧ e.isAbstract = false ∧
      (e.isInner = true → ∃ source, c.outerInstance e = .ok source) ∧ m ∈ e.constructors ∧
      c.registry.Passes args m.params := by
  unfold constructor at h
  obtain ⟨e, he, h⟩ := bind_eq_ok.1 h
  have hget := classEntry_eq_ok.1 he
  dsimp only at h
  cases habstract : e.isAbstract with
  | true =>
    rw [if_pos habstract] at h
    cases h
  | false =>
    rw [if_neg (by simp [habstract])] at h
    have hpick : (e.isInner = true → ∃ source, c.outerInstance e = .ok source) ∧
        c.pick constructorName args (c.registry.resolveConstructor cls args) = .ok m := by
      cases hinner : e.isInner with
      | true =>
        rw [if_pos hinner] at h
        obtain ⟨source, hsource, h⟩ := bind_eq_ok.1 h
        exact ⟨fun _ => ⟨source, hsource⟩, h⟩
      | false =>
        rw [if_neg (by simp [hinner])] at h
        exact ⟨fun hin => Bool.noConfusion hin, h⟩
    obtain ⟨e', he', hm, hpasses⟩ := resolveConstructor_eq_found (pick_eq_ok hpick.2)
    rw [hget] at he'
    cases he'
    exact ⟨e, hget, habstract, hpick.1, hm, hpasses⟩

theorem superConstructor_eq_ok (h : c.superConstructor args = .ok m) :
    ∃ s e, c.cls.superclass = some s ∧ c.registry.get? s = some e ∧ m ∈ e.constructors ∧
      c.registry.Passes args m.params := by
  unfold superConstructor at h
  split at h
  · rename_i s hs
    obtain ⟨e, he, hm, hpasses⟩ := resolveConstructor_eq_found (pick_eq_ok h)
    exact ⟨s, e, hs, he, hm, hpasses⟩
  · cases h

theorem outerInstance_eq_ok {e : ClassEntry} {source : OuterSource} (h : c.outerInstance e = .ok source) :
    c.isStatic = false ∧ ∃ enclosing, e.enclosing = some enclosing ∧
      (source = .this ∧ c.registry.isSubclassOf c.cls.name enclosing = true ∨
        source = .outerOfThis ∧ ∃ own, c.cls.enclosing = some own ∧ c.cls.isInner = true ∧
          c.registry.isSubclassOf own enclosing = true) := by
  unfold outerInstance at h
  split at h
  · cases h
  · rename_i enclosing henc
    dsimp only at h
    split at h
    · cases h
    · rename_i hstatic
      refine ⟨by simpa using hstatic, enclosing, henc, ?_⟩
      split at h
      · rename_i hsub
        cases h
        exact .inl ⟨rfl, hsub⟩
      · split at h
        · rename_i own hown
          split at h
          · rename_i hboth
            cases h
            rw [Bool.and_eq_true] at hboth
            exact .inr ⟨rfl, own, hown, hboth.1, hboth.2⟩
          · cases h
        · cases h

theorem outerType_eq_ok {t : Ty} (h : c.outerType = .ok t) :
    c.isStatic = false ∧ ∃ outer, c.cls.enclosing = some outer ∧ c.cls.isInner = true ∧ t = .ref outer := by
  unfold outerType at h
  obtain ⟨_, hinstance, h⟩ := bind_eq_ok.1 h
  refine ⟨requireInstance_eq_ok.1 hinstance, ?_⟩
  split at h
  · rename_i outer henc hinner
    cases h
    exact ⟨outer, henc, hinner, rfl⟩
  · cases h

end Context

end ClassTree
