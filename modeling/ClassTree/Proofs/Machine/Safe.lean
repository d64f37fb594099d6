import ClassTree.Proofs.Loader.Verified

/-!
# Computations that no verified class makes invalid

`Machine.Sound`: the classes that the loader holds, those of all objects and those that are linked are sound. `Safe x Q`: from a sound machine the
computation `x` ends in a sound machine, with a value that satisfies `Q` if it ends with one, and never halts because of
invalid code. Host methods, lookups and the beginnings of calls are safe, and what they find are methods of sound
classes.
-/

namespace ClassTree

/-- Whether the machine halts because of code that no verified class has. -/
def Halt.isInvalid : Halt → Bool
  | .failure (.invalidBytecode _ _) => true
  | _ => false

/-- The classes that the loader holds, those of all objects and those that are linked are sound. -/
structure Machine.Sound (m : Machine) : Prop where
  loader : m.loader.Sound
  heap : ∀ id c, m.heap.class? id = some c → c.Sound
  links : ∀ (name : String) (c : LoadedClass), m.links[name]? = some c → c.Sound

/-- From a sound machine the computation ends in a sound one, and not because of invalid code. -/
def Safe {α : Type} (x : Run α) (Q : α → Prop) : Prop :=
  ∀ m : Machine, m.Sound → Triple x m (fun a m => m.Sound ∧ Q a) fun e m => m.Sound ∧ e.isInvalid = false

namespace Safe

variable {α β : Type} {Q Q' : α → Prop} {R : β → Prop}

theorem pure {a : α} (h : Q a) : Safe (Pure.pure a) Q := fun _ hm => ⟨hm, h⟩

theorem throw {e : Halt} (h : e.isInvalid = false) : Safe (MonadExcept.throw e : Run α) Q := fun _ hm => ⟨hm, h⟩

theorem fail {e : RuntimeError} (h : (Halt.failure e).isInvalid = false) : Safe (Run.fail e : Run α) Q := throw h

theorem bind {x : Run α} {f : α → Run β} (hx : Safe x Q) (hf : ∀ a, Q a → Safe (f a) R) : Safe (x >>= f) R :=
  fun m hm => Triple.bind (hx m hm) fun a m' h => hf a h.2 m' h.1

theorem mono {x : Run α} (hx : Safe x Q) (h : ∀ a, Q a → Q' a) : Safe x Q' :=
  fun m hm => (hx m hm).mono (fun a _ hq => ⟨hq.1, h a hq.2⟩) fun _ _ he => he

theorem get : Safe MonadState.get Machine.Sound := fun _ hm => ⟨hm, hm⟩

/-- The rule for a computation that fails first of all under a condition. -/
theorem failIf {c : Prop} [Decidable c] {e : RuntimeError} {k : PUnit → Run β}
    (he : (Halt.failure e).isInvalid = false) (hk : ¬c → Safe (k ⟨⟩) R) :
    Safe (if c then Run.fail e >>= k else k ⟨⟩) R := by
  split
  · exact bind (Q := fun _ => False) (fail he) fun _ h => h.elim
  · exact hk ‹_›

theorem need {o : Option α} {e : Unit → RuntimeError} (hs : ∀ a, o = some a → Q a)
    (hn : (Halt.failure (e ())).isInvalid = false) : Safe (Run.need o e) Q :=
  fun _ hm => Triple.need (fun a ha => ⟨hm, hs a ha⟩) fun _ => ⟨hm, hn⟩

theorem ask {f : Heap → Except RuntimeError α} (hs : ∀ h a, f h = .ok a → Q a)
    (hn : ∀ h e, f h = .error e → (Halt.failure e).isInvalid = false) : Safe (Run.ask f) Q :=
  fun m hm => Triple.ask (fun a ha => ⟨hm, hs m.heap a ha⟩) fun e he => ⟨hm, hn m.heap e he⟩

/-- A change of the heap that keeps the classes of the objects is safe. -/
theorem onHeap {f : Heap → Heap} {Q : Unit → Prop} (hf : ∀ (h : Heap) (id : Nat), (f h).class? id = h.class? id)
    (hq : Q ()) : Safe (Run.onHeap f) Q :=
  fun m hm => Triple.onHeap ⟨⟨hm.loader, fun id c hc => hm.heap id c (by rw [← hf]; exact hc), hm.links⟩, hq⟩

theorem deeper {x : Run α} (hx : Safe x Q) : Safe (Run.deeper x) Q := by
  intro m hm
  refine Triple.deeper (Triple.mono (hx { m with depth := m.depth + 1 } ⟨hm.loader, hm.heap, hm.links⟩) ?_ ?_)
  · exact fun _ _ h => ⟨⟨h.1.loader, h.1.heap, h.1.links⟩, h.2⟩
  · exact fun _ _ h => ⟨⟨h.1.loader, h.1.heap, h.1.links⟩, h.2⟩

theorem nest {x : Run α} (hx : Safe x Q) : Safe (Run.nest x) Q := by
  intro m hm
  refine Triple.nest ⟨hm, rfl⟩ (Triple.mono
    (hx { m with depth := m.depth + 1, nestedRuns := m.nestedRuns + 1 } ⟨hm.loader, hm.heap, hm.links⟩) ?_ ?_)
  · exact fun _ _ h => ⟨⟨h.1.loader, h.1.heap, h.1.links⟩, h.2⟩
  · exact fun _ _ h => ⟨⟨h.1.loader, h.1.heap, h.1.links⟩, h.2⟩

theorem changeDepth {f : Nat → Nat} {Q : Unit → Prop} (hq : Q ()) : Safe (Run.changeDepth f) Q :=
  fun _ hm => Triple.changeDepth ⟨⟨hm.loader, hm.heap, hm.links⟩, hq⟩

end Safe

/-! ## The heap -/

/-- Arithmetic between numbers fails only at a division by zero. -/
theorem NumberPair.eq_divisionByZero {p : NumberPair} {op : ArithOp} {e : RuntimeError} (he : p.arith op = .error e) :
    e = .divisionByZero := by
  have hdiv : ∀ {c : Prop} [Decidable c] {v : Value},
      (if c then Except.error RuntimeError.divisionByZero else .ok v) = .error e → e = .divisionByZero := by
    intro c _ v h
    split at h <;> cases h
    rfl
  cases p with
  | ints a b => cases op <;> first | exact hdiv he | cases he
  | longs a b => cases op <;> first | exact hdiv he | cases he
  | doubles a b => cases he

namespace Heap

theorem class?_modify {h : Heap} {f : Object → Object} (hf : ∀ o, (f o).cls = o.cls) (i id : Nat) :
    Heap.class? { h with objects := h.objects.modify i f } id = h.class? id := by
  simp only [class?, get?, Array.getElem?_modify]
  split
  · simp [Option.map_map, Function.comp_def, hf]
  · rfl

theorem class?_setField (h : Heap) (i slot : Nat) (v : Value) (id : Nat) :
    (h.setField i slot v).class? id = h.class? id :=
  class?_modify (f := fun o => { o with fields := o.fields.setIfInBounds slot v }) (fun _ => rfl) i id

theorem class?_modifyBuffer (h : Heap) (i : Nat) (f : String → String) (id : Nat) :
    (h.modifyBuffer i f).class? id = h.class? id :=
  class?_modify (f := fun o => { o with buffer := o.buffer.map f }) (fun _ => rfl) i id

theorem class?_alloc (h : Heap) (cls : LoadedClass) (id : Nat) :
    (h.alloc cls).2.class? id = if id = h.objects.size then some cls else h.class? id := by
  simp only [alloc, class?, get?, Array.getElem?_push]
  split <;> rfl

/-! ## Conversions and operators -/

theorem coerce_valid {h : Heap} {v : Value} {t : Ty} {e : RuntimeError} (he : h.coerce v t = .error e) :
    (Halt.failure e).isInvalid = false := by
  have hcheck : ∀ {c : Bool} {v' : Value} {s : String},
      (if c then Except.ok v' else Except.error (h.mismatch s v)) = .error e → (Halt.failure e).isInvalid = false := by
    intro c v' s hc
    split at hc
    · cases hc
    · cases hc; rfl
  cases v <;> cases t <;> first | (cases he; done) | (cases he; rfl) | exact hcheck he

theorem coerceAll_valid {h : Heap} {vs : List Value} {ts : List Ty} {e : RuntimeError}
    (he : h.coerceAll vs ts = .error e) : (Halt.failure e).isInvalid = false := by
  induction vs generalizing ts with
  | nil => cases he
  | cons v vs ih =>
    cases ts with
    | nil => cases he
    | cons t ts =>
      rw [coerceAll] at he
      cases hv : h.coerce v t with
      | error e' =>
        rw [hv] at he
        cases he
        exact coerce_valid hv
      | ok v' =>
        cases hvs : h.coerceAll vs ts with
        | error e' =>
          rw [hv, hvs] at he
          cases he
          exact ih hvs
        | ok vs' =>
          rw [hv, hvs] at he
          cases he

theorem finish_valid {h : Heap} {m : LoadedMethod} {v : Option Value} {e : RuntimeError}
    (he : h.finish m v = .error e) : (Halt.failure e).isInvalid = false := by
  unfold finish at he
  split at he
  · split at he
    · cases he
    · exact coerce_valid he
  · split at he <;> cases he

theorem operands_valid {h : Heap} {a b : Value} {e : RuntimeError} (he : h.operands a b = .error e) :
    (Halt.failure e).isInvalid = false := by
  unfold operands at he
  split at he <;> cases he
  rfl

theorem arith_valid {h : Heap} {op : ArithOp} {a b : Value} {e : RuntimeError} (he : h.arith op a b = .error e) :
    (Halt.failure e).isInvalid = false := by
  unfold arith at he
  cases hp : h.operands a b with
  | error e' =>
    rw [hp] at he
    cases he
    exact operands_valid hp
  | ok p =>
    rw [hp] at he
    change p.arith op = .error e at he
    rw [NumberPair.eq_divisionByZero he]
    rfl

theorem compare_valid {h : Heap} {op : CompareOp} {a b : Value} {e : RuntimeError}
    (he : h.compare op a b = .error e) : (Halt.failure e).isInvalid = false := by
  unfold compare at he
  split at he
  · cases he
  · cases he
  · cases hp : h.operands a b with
    | error e' =>
      rw [hp] at he
      cases he
      exact operands_valid hp
    | ok p => rw [hp] at he; cases he

theorem negate_valid {h : Heap} {v : Value} {e : RuntimeError} (he : h.negate v = .error e) :
    (Halt.failure e).isInvalid = false := by
  cases v <;> cases he <;> rfl

theorem complement_valid {h : Heap} {v : Value} {e : RuntimeError} (he : h.complement v = .error e) :
    (Halt.failure e).isInvalid = false := by
  cases v <;> cases he <;> rfl

theorem truth_valid {h : Heap} {v : Value} {e : RuntimeError} (he : h.truth v = .error e) :
    (Halt.failure e).isInvalid = false := by
  cases v <;> cases he <;> rfl

theorem widen_valid {h : Heap} {w : Widening} {v : Value} {e : RuntimeError} (he : h.widen w v = .error e) :
    (Halt.failure e).isInvalid = false := by
  unfold widen at he
  split at he <;> cases he
  rfl

theorem mem_of_foldl_cheaper {cs : List (UInt32 × Target)} {best : Option (UInt32 × Target)} {c : UInt32 × Target}
    (h : cs.foldl cheaper best = some c) : c ∈ cs ∨ best = some c := by
  induction cs generalizing best with
  | nil => exact .inr h
  | cons k cs ih =>
    rcases ih h with h | h
    · exact .inl (List.mem_cons_of_mem _ h)
    · unfold cheaper at h
      split at h
      · split at h
        · cases h; exact .inl List.mem_cons_self
        · exact .inr h
      · cases h; exact .inl List.mem_cons_self

/-- What is selected is one of the candidates. -/
theorem mem_of_select? {h : Heap} {candidates : List Target} {args : List Value} {t : Target}
    (ht : h.select? candidates args = some t) : t ∈ candidates := by
  obtain ⟨c, hc, rfl⟩ := Option.map_eq_some_iff.1 ht
  rcases mem_of_foldl_cheaper hc with hm | hm
  · obtain ⟨k, hk, hkc⟩ := List.mem_filterMap.1 hm
    obtain ⟨cost, -, rfl⟩ := Option.map_eq_some_iff.1 hkc
    exact hk
  · cases hm

end Heap

/-! ## Lookups -/

/-- A method of a sound class. -/
structure Target.Sound (t : Target) : Prop where
  cls : t.cls.Sound
  mem : t.method ∈ t.cls.methods

namespace LoadedClass

variable {c : LoadedClass}

theorem mem_of_ownMethod? {name descriptor : String} {m : LoadedMethod} (h : c.ownMethod? name descriptor = some m) :
    m ∈ c.methods := List.mem_of_find?_eq_some h

theorem sound_of_findMethod? (hc : c.Sound) {name descriptor : String} {t : Target}
    (h : c.findMethod? name descriptor = some t) : t.Sound := by
  obtain ⟨k, hk, ht⟩ := List.exists_of_findSome?_eq_some h
  obtain ⟨m, hm, rfl⟩ := Option.map_eq_some_iff.1 ht
  exact ⟨hc.of_mem hk, mem_of_ownMethod? hm⟩

theorem mem_of_foldl_addTarget {ts found : List Target} {t : Target} (h : t ∈ ts.foldl addTarget found) :
    t ∈ ts ∨ t ∈ found := by
  induction ts generalizing found with
  | nil => exact .inr h
  | cons k ts ih =>
    rcases ih h with h | h
    · exact .inl (List.mem_cons_of_mem _ h)
    · unfold addTarget at h
      split at h
      · exact .inr h
      · rcases List.mem_append.1 h with h | h
        · exact .inr h
        · rw [List.mem_singleton.1 h]
          exact .inl List.mem_cons_self

theorem sound_of_mem_methodsNamed (hc : c.Sound) {name : String} {argc : Nat} {t : Target}
    (h : t ∈ c.methodsNamed name argc) : t.Sound := by
  rcases mem_of_foldl_addTarget h with h | h
  · obtain ⟨k, hk, ht⟩ := List.mem_flatMap.1 h
    obtain ⟨m, hm, rfl⟩ := List.mem_map.1 ht
    exact ⟨hc.of_mem hk, (List.mem_filter.1 hm).1⟩
  · cases h

theorem sound_of_mem_constructors (hc : c.Sound) {argc : Nat} {t : Target} (h : t ∈ c.constructors argc) :
    t.Sound := by
  obtain ⟨m, hm, rfl⟩ := List.mem_map.1 h
  exact ⟨hc, (List.mem_filter.1 hm).1⟩

end LoadedClass

namespace Safe

theorem keep {c : LoadedClass} (hc : c.Sound) (name : String) : Safe (Run.keep name c) fun _ => True := by
  refine fun m hm => Triple.keep ⟨⟨hm.loader, hm.heap, fun n k hk => ?_⟩, trivial⟩
  rw [Std.HashMap.getElem?_insert] at hk
  split at hk
  · cases hk; exact hc
  · exact hm.links n k hk

theorem resolve (source name : String) : Safe (Run.resolve source name) LoadedClass.Sound := by
  refine bind get fun m hm => ?_
  split
  · rename_i c hc
    exact pure (hm.links name c hc)
  · refine bind (need (fun c hc => hm.loader name c hc) rfl) fun c hc => ?_
    exact bind (keep hc name) fun _ _ => pure hc

theorem link (source : LoadedClass) (name : String) : Safe (Run.link source name) LoadedClass.Sound :=
  resolve source.name.text name

theorem mismatch {α : Type} {Q : α → Prop} (expected : String) (v : Value) :
    Safe (Run.ask fun h => .error (h.mismatch expected v)) Q :=
  ask (fun _ _ h => by cases h) fun _ _ h => by cases h; rfl

theorem classOf (v : Value) (member : String) : Safe (Run.classOf v member) LoadedClass.Sound := by
  cases v
  case object id => exact bind get fun m hm => need (fun c hc => hm.heap id c hc) rfl
  case str s => exact resolve member Name.string.text
  case null => exact fail rfl
  all_goals exact mismatch "object" _

theorem alloc {cls : LoadedClass} (hcls : cls.Sound) : Safe (Run.alloc cls) fun _ => True := by
  refine fun m hm => Triple.alloc ⟨⟨hm.loader, fun id c hc => ?_, hm.links⟩, trivial⟩
  rw [Heap.class?_alloc] at hc
  split at hc
  · cases hc; exact hcls
  · exact hm.heap id c hc

theorem virtualTarget (receiver : Value) (name : String) (args : List Value) :
    Safe (ClassTree.virtualTarget receiver name args) Target.Sound := by
  refine bind (classOf receiver name) fun cls hcls => bind get fun m _ => need (fun t ht => ?_) rfl
  exact LoadedClass.sound_of_mem_methodsNamed hcls (List.mem_filter.1 (Heap.mem_of_select? ht)).1

theorem staticTarget {cls : LoadedClass} (hcls : cls.Sound) (name : String) (args : List Value) :
    Safe (ClassTree.staticTarget cls name args) Target.Sound := by
  refine bind get fun m _ => need (fun t ht => ?_) rfl
  exact LoadedClass.sound_of_mem_methodsNamed hcls (List.mem_filter.1 (Heap.mem_of_select? ht)).1

theorem constructorTarget {cls : LoadedClass} (hcls : cls.Sound) (args : List Value) :
    Safe (ClassTree.constructorTarget cls args) Target.Sound := by
  refine bind get fun m _ => need (fun t ht => ?_) rfl
  exact LoadedClass.sound_of_mem_constructors hcls (Heap.mem_of_select? ht)

/-! ## Fields -/

theorem objectOf (v : Value) (member : String) : Safe (ClassTree.objectOf v member) fun _ => True := by
  cases v
  case object id => exact pure trivial
  case null => exact fail rfl
  all_goals exact mismatch "object" _

theorem readField (slot? : LoadedClass → Option Nat) (v : Value) (name : String) :
    Safe (ClassTree.readField slot? v name) fun _ => True := by
  refine bind (objectOf v name) fun id _ => bind (classOf v name) fun cls _ => ?_
  refine bind (Q := fun _ => True) (need (fun _ _ => trivial) rfl) fun slot _ => ?_
  exact bind get fun m _ => need (fun _ _ => trivial) rfl

theorem writeField (slot? : LoadedClass → Option Nat) (v : Value) (name : String) (new : Value) :
    Safe (ClassTree.writeField slot? v name new) fun _ => True := by
  refine bind (objectOf v name) fun id _ => bind (classOf v name) fun cls _ => ?_
  refine bind (Q := fun _ => True) (need (fun _ _ => trivial) rfl) fun slot _ => ?_
  refine bind (Q := fun _ => True) (need (fun _ _ => trivial) rfl) fun decl _ => ?_
  refine bind (Q := fun _ => True) (ask (fun _ _ _ => trivial) fun _ _ => Heap.coerce_valid) fun new _ => ?_
  refine bind get fun m _ => ?_
  split
  · exact onHeap (fun h j => Heap.class?_setField h id slot new j) trivial
  · exact fail rfl

end Safe

/-! ## Host methods -/

namespace Native

theorem safe_text (v : Value) (member : String) : Safe (text v member) fun _ => True := by
  cases v
  case str s => exact .pure trivial
  case null => exact .fail rfl
  all_goals exact .mismatch Name.string.text _

theorem safe_builder (v : Value) (member : String) : Safe (builder v member) fun _ => True := by
  cases v
  case null => exact .fail rfl
  case object id =>
    refine .bind .get fun m _ => ?_
    split
    · exact .pure trivial
    · exact .mismatch Name.stringBuilder.text _
  all_goals exact .mismatch Name.stringBuilder.text _

theorem safe_buffer (id : Nat) : Safe (buffer id) fun _ => True := .bind .get fun _ _ => .pure trivial

theorem safe_hash (v : Value) : Safe (hash v) fun _ => True := by
  cases v
  case null => exact .fail rfl
  case object id => exact .bind .get fun _ _ => .pure trivial
  all_goals exact .pure trivial

/-- A host method is safe if the texts that it asks for are. -/
theorem safe_run {render : Value → Run String} (hrender : ∀ v, Safe (render v) fun _ => True) (n : Native)
    (receiver : Value) (args : List Value) : Safe (n.run render receiver args) fun _ => True := by
  cases n with
  | init => exact .pure trivial
  | objectToString => exact .bind .get fun _ _ => .pure trivial
  | objectHashCode => exact safe_hash receiver
  | objectEquals => exact .pure trivial
  | stringLength => exact .bind (safe_text receiver _) fun _ _ => .pure trivial
  | stringIsEmpty => exact .bind (safe_text receiver _) fun _ _ => .pure trivial
  | stringConcat =>
    exact .bind (safe_text receiver _) fun _ _ => .bind (safe_text _ _) fun _ _ => .pure trivial
  | stringToString => exact .bind (safe_text receiver _) fun _ _ => .pure trivial
  | builderInit =>
    refine .bind (safe_builder receiver _) fun id _ => .bind (safe_text _ _) fun initial _ => ?_
    exact .bind (Q := fun _ => True) (.onHeap (fun h => h.class?_modifyBuffer id _) trivial) fun _ _ => .pure trivial
  | builderAppend =>
    refine .bind (safe_builder receiver _) fun id _ => .bind (hrender _) fun more _ => ?_
    exact .bind (Q := fun _ => True) (.onHeap (fun h => h.class?_modifyBuffer id _) trivial) fun _ _ => .pure trivial
  | builderLength =>
    exact .bind (safe_builder receiver _) fun id _ => .bind (safe_buffer id) fun _ _ => .pure trivial
  | builderToString =>
    exact .bind (safe_builder receiver _) fun id _ => .bind (safe_buffer id) fun _ _ => .pure trivial

end Native

end ClassTree
