import ClassTree.Proofs.Machine.Conforming

/-!
# Computations that keep a machine typed

`Machine.Typed l`: the machine runs over the loader `l`, its heap is typed, and its objects are instances of classes of the
loader that may have some. `TypeSafe l x m Q`: the computation `x`, begun in the machine `m`, leaves the machine typed and the
classes of all objects as they were, and ends in a value with `Q` or for a reason that is to be expected of typed code
(`Halt.Expected`): there was no fuel left, a reference was null, a divisor was zero, or there were too many calls. Nothing is
said of a halt because of invalid code, since no verified class has such code.

* Lookups of typed code find what they look for (`TypeSafe.link`, `TypeSafe.classOf`), and so do reads and writes of fields
  (`TypeSafe.readField`, `TypeSafe.writeField`).
* What a host method is given and gives is as its declaration says (`Native.fits`, `TypeSafe.native`).
-/

namespace ClassTree

/-! ## Typed machines -/

/-- Why typed code may end without a value. -/
def Halt.Expected : Halt → Prop
  | .outOfFuel | .failure (.nullReference _) | .failure .divisionByZero | .failure (.stackOverflow _) => True
  | _ => False

/-- The machine runs over the loader, the values of fields have their types, and every object may be there. -/
structure Machine.Typed (l : Loader) (m : Machine) : Prop where
  loader : m.loader = l
  links : ∀ (name : String) (c : LoadedClass), m.links[name]? = some c → l.resolve? name = some c
  heap : m.heap.Typed
  objects : ∀ id c, m.heap.class? id = some c → l.Instantiable c

/-- The second machine is typed, and has the objects of the first. -/
structure Machine.Onward (l : Loader) (m m' : Machine) : Prop where
  typed : m'.Typed l
  kept : ∀ id c, m.heap.class? id = some c → m'.heap.class? id = some c

/-- The computation leaves the machine typed, and ends in a value with `Q` or for a reason that is to be expected, or code is
invalid. -/
def TypeSafe (l : Loader) {α : Type} (x : Run α) (m : Machine) (Q : α → Heap → Prop) : Prop :=
  Triple x m (fun a m' => m.Onward l m' ∧ Q a m'.heap) fun e m' => m.Onward l m' ∧ (e.Expected ∨ e.isInvalid = true)

variable {l : Loader} {m m' m'' : Machine}

theorem Machine.Typed.onward (hm : m.Typed l) : m.Onward l m := ⟨hm, fun _ _ h => h⟩

theorem Machine.Onward.trans (h : m.Onward l m') (h' : m'.Onward l m'') : m.Onward l m'' :=
  ⟨h'.typed, fun id c hc => h'.kept id c (h.kept id c hc)⟩

theorem Machine.Onward.conforms (h : m.Onward l m') {v : Value} {t : Ty} (hv : m.heap.Conforms v t) :
    m'.heap.Conforms v t := hv.mono h.kept

theorem Machine.Typed.holds (hl : l.WellFormed) (hm : m.Typed l) {v : Value} {k : LoadedClass}
    (hk : m.heap.classOf? v = some k) : l.Holds k ∧ k.isAbstract = false := by
  cases v
  case str s =>
    cases hk
    exact ⟨hl.hosts _ (by simp [LoadedClass.hosts]), rfl⟩
  case object id => exact ⟨(hm.objects id k hk).1, (hm.objects id k hk).2.1⟩
  all_goals cases hk

/-- What conforms to a type conforms to every type that has more values. -/
theorem Machine.Typed.conforms (hl : l.WellFormed) (hm : m.Typed l) {v : Value} {s t : Ty} (hv : m.heap.Conforms v s)
    (hst : l.IsSubtype s t) : m.heap.Conforms v t := hv.of_isSubtype (fun _ _ hk => (hm.holds hl hk).1) hst

/-- A machine that has not run yet is typed. -/
theorem Machine.typed_start (l : Loader) (identity : Nat → Int32) :
    Machine.Typed l { loader := l, heap := .empty identity } where
  loader := rfl
  links name c h := by simp at h
  heap := Heap.typed_empty identity
  objects id c h := by simp [Heap.empty, Heap.class?, Heap.get?] at h

namespace TypeSafe

/-! ## Rules -/

section Rules

variable {α β : Type} {Q Q' : α → Heap → Prop} {R : β → Heap → Prop}

theorem pure {a : α} (hm : m.Typed l) (h : Q a m.heap) : TypeSafe l (Pure.pure a) m Q := ⟨hm.onward, h⟩

theorem throw {e : Halt} (hm : m.Typed l) (he : e.Expected ∨ e.isInvalid = true) :
    TypeSafe l (MonadExcept.throw e : Run α) m Q := ⟨hm.onward, he⟩

theorem fail {e : RuntimeError} (hm : m.Typed l) (he : (Halt.failure e).Expected ∨ (Halt.failure e).isInvalid = true) :
    TypeSafe l (Run.fail e : Run α) m Q := throw hm he

theorem mono {x : Run α} (hx : TypeSafe l x m Q) (h : ∀ a m', m.Onward l m' → Q a m'.heap → Q' a m'.heap) :
    TypeSafe l x m Q' := Triple.mono hx (fun a m' ha => ⟨ha.1, h a m' ha.1 ha.2⟩) fun _ _ he => he

theorem bind {x : Run α} {f : α → Run β} (hx : TypeSafe l x m Q)
    (hf : ∀ a m', m.Onward l m' → Q a m'.heap → TypeSafe l (f a) m' R) : TypeSafe l (x >>= f) m R := by
  refine Triple.bind hx fun a m' ha => Triple.mono (hf a m' ha.1 ha.2) ?_ ?_
  · exact fun _ _ hb => ⟨ha.1.trans hb.1, hb.2⟩
  · exact fun _ _ he => ⟨ha.1.trans he.1, he.2⟩

/-- The rule for a computation that asks for the machine. -/
theorem bind_get {f : Machine → Run α} (hf : TypeSafe l (f m) m Q) : TypeSafe l (MonadState.get >>= f) m Q :=
  Triple.bind (Triple.get (Q := fun a m' => a = m ∧ m' = m) ⟨rfl, rfl⟩) fun a m' h => by
    obtain ⟨rfl, rfl⟩ := h
    exact hf

/-- The rule for a computation that fails first of all under a condition. -/
theorem failIf {c : Prop} [Decidable c] {e : RuntimeError} {k : PUnit → Run α} (hm : m.Typed l)
    (he : c → (Halt.failure e).Expected) (hk : ¬c → TypeSafe l (k ⟨⟩) m Q) :
    TypeSafe l (if c then Run.fail e >>= k else k ⟨⟩) m Q := by
  split
  · rename_i hc
    exact bind (Q := fun _ _ => False) (fail hm (.inl (he hc))) fun _ _ _ h => h.elim
  · rename_i hc
    exact hk hc

theorem need {o : Option α} {e : Unit → RuntimeError} {a : α} (hm : m.Typed l) (ho : o = some a) (ha : Q a m.heap) :
    TypeSafe l (Run.need o e) m Q := by
  rw [ho]
  exact pure hm ha

/-- The rule for what comes after something that is known to be there. -/
theorem need_bind {o : Option α} {e : Unit → RuntimeError} {a : α} {k : α → Run β} (ho : o = some a)
    (hk : TypeSafe l (k a) m R) : TypeSafe l (Run.need o e >>= k) m R := by
  rw [ho]
  exact hk

theorem ask {f : Heap → Except RuntimeError α} (hm : m.Typed l) (hs : ∀ a, f m.heap = .ok a → Q a m.heap)
    (hn : ∀ e, f m.heap = .error e → (Halt.failure e).Expected) : TypeSafe l (Run.ask f) m Q :=
  Triple.ask (fun a ha => ⟨hm.onward, hs a ha⟩) fun e he => ⟨hm.onward, .inl (hn e he)⟩

/-- The rule for what comes after a question to the heap whose answer is known. -/
theorem ask_bind {f : Heap → Except RuntimeError α} {a : α} {k : α → Run β} (hf : f m.heap = .ok a)
    (hk : TypeSafe l (k a) m R) : TypeSafe l (Run.ask f >>= k) m R := by
  refine Triple.bind (Triple.ask (Q := fun b m' => b = a ∧ m' = m) (fun b hb => ⟨?_, rfl⟩) fun e he => ?_) fun b m' h => ?_
  · exact Except.ok.inj (hb.symm.trans hf)
  · cases hf.symm.trans he
  · obtain ⟨rfl, rfl⟩ := h
    exact hk

/-- The rule for a question that has an answer. -/
theorem ask_ok {f : Heap → Except RuntimeError α} {a : α} (hm : m.Typed l) (hf : f m.heap = .ok a) (ha : Q a m.heap) :
    TypeSafe l (Run.ask f) m Q := by
  refine ask hm (fun b hb => ?_) fun e he => ?_
  · cases hf.symm.trans hb
    exact ha
  · cases hf.symm.trans he

/-- The rule for a change of the heap that keeps the types. -/
theorem onHeap {f : Heap → Heap} {Q : Unit → Heap → Prop} (hm : m.Typed l)
    (hf : ∀ id, (f m.heap).class? id = m.heap.class? id) (htyped : (f m.heap).Typed) (hq : Q () (f m.heap)) :
    TypeSafe l (Run.onHeap f) m Q :=
  Triple.onHeap ⟨⟨⟨hm.loader, hm.links, htyped, fun id c hc => hm.objects id c (by rw [← hf]; exact hc)⟩,
    fun id c hc => by rw [hf]; exact hc⟩, hq⟩

theorem changeDepth {f : Nat → Nat} {Q : Unit → Heap → Prop} (hm : m.Typed l) (hq : Q () m.heap) :
    TypeSafe l (Run.changeDepth f) m Q :=
  Triple.changeDepth ⟨⟨⟨hm.loader, hm.links, hm.heap, hm.objects⟩, fun _ _ h => h⟩, hq⟩

theorem deeper {x : Run α} (hm : m.Typed l) (hx : ∀ m', m.Onward l m' → m'.heap = m.heap → TypeSafe l x m' Q) :
    TypeSafe l (Run.deeper x) m Q := by
  have hdeep : m.Onward l { m with depth := m.depth + 1 } :=
    ⟨⟨hm.loader, hm.links, hm.heap, hm.objects⟩, fun _ _ h => h⟩
  refine Triple.deeper (Triple.mono (hx _ hdeep rfl) ?_ ?_)
  · exact fun _ _ h => ⟨⟨⟨h.1.typed.loader, h.1.typed.links, h.1.typed.heap, h.1.typed.objects⟩, h.1.kept⟩, h.2⟩
  · exact fun _ _ h => ⟨⟨⟨h.1.typed.loader, h.1.typed.links, h.1.typed.heap, h.1.typed.objects⟩, h.1.kept⟩, h.2⟩

theorem nest {x : Run α} (hm : m.Typed l) (hx : ∀ m', m.Onward l m' → m'.heap = m.heap → TypeSafe l x m' Q) :
    TypeSafe l (Run.nest x) m Q := by
  have hdeep : m.Onward l { m with depth := m.depth + 1, nestedRuns := m.nestedRuns + 1 } :=
    ⟨⟨hm.loader, hm.links, hm.heap, hm.objects⟩, fun _ _ h => h⟩
  refine Triple.nest ⟨hm.onward, .inl trivial⟩ (Triple.mono (hx _ hdeep rfl) ?_ ?_)
  · exact fun _ _ h => ⟨⟨⟨h.1.typed.loader, h.1.typed.links, h.1.typed.heap, h.1.typed.objects⟩, h.1.kept⟩, h.2⟩
  · exact fun _ _ h => ⟨⟨⟨h.1.typed.loader, h.1.typed.links, h.1.typed.heap, h.1.typed.objects⟩, h.1.kept⟩, h.2⟩

end Rules

/-! ## Lookups -/

variable {n : Name} {v w : Value} {t : Ty} {c : LoadedClass} {name member : String}

theorem alloc (hm : m.Typed l) (hc : l.Instantiable c) :
    TypeSafe l (Run.alloc c) m fun v h => h.classOf? v = some c := by
  have hkept : ∀ id k, m.heap.class? id = some k → (m.heap.alloc c).2.class? id = some k := by
    intro id k hk
    have hne : id ≠ m.heap.objects.size := by
      rintro rfl
      simp [Heap.class?, Heap.get?] at hk
    rw [Heap.class?_alloc, if_neg hne, hk]
  refine Triple.alloc ⟨⟨⟨hm.loader, hm.links, hm.heap.alloc c, fun id k hk => ?_⟩, hkept⟩, ?_⟩
  · rw [Heap.class?_alloc] at hk
    split at hk
    · cases hk
      exact hc
    · exact hm.objects id k hk
  · exact (Heap.class?_alloc m.heap c _).trans (if_pos rfl)

theorem resolve (hm : m.Typed l) (hc : l.resolve? name = some c) (source : String) :
    TypeSafe l (Run.resolve source name) m fun k _ => k = c := by
  refine bind_get ?_
  split
  · rename_i k hk
    exact pure hm (Option.some.inj ((hm.links name k hk).symm.trans hc))
  · have hfound : m.loader.resolve? name = some c := by rw [hm.loader, hc]
    refine need_bind hfound ?_
    refine bind (Q := fun _ _ => True) (Triple.keep ⟨⟨⟨?_, ?_, hm.heap, hm.objects⟩, fun _ _ h => h⟩, trivial⟩)
      fun _ m₁ h₁ _ => pure h₁.typed rfl
    · exact hm.loader
    · intro other d hd
      rw [Std.HashMap.getElem?_insert] at hd
      split at hd
      · rename_i heq
        cases hd
        rw [← beq_iff_eq.1 heq]
        exact hc
      · exact hm.links other d hd

theorem link (hm : m.Typed l) (hc : l.resolve? name = some c) (source : LoadedClass) :
    TypeSafe l (Run.link source name) m fun k _ => k = c := resolve hm hc source.name.text

variable (hl : l.WellFormed)
include hl

/-- The class of an instance is found, unless there is none. -/
theorem classOf (hm : m.Typed l) (hv : m.heap.Conforms v (.ref n)) (member : String) :
    TypeSafe l (Run.classOf v member) m fun c h =>
      h.classOf? v = some c ∧ l.Holds c ∧ c.isAbstract = false ∧ (c.distance? n).isSome = true := by
  rcases hv.null_or_instance with rfl | ⟨k, hk, hdistance⟩
  · exact fail hm (.inl trivial)
  · have hheld := hm.holds hl hk
    cases v
    case str s =>
      cases hk
      have hstring : l.resolve? Name.string.text = some .string := hl.hosts .string (by simp [LoadedClass.hosts])
      refine (resolve hm hstring member).mono fun c m' _ hc => ?_
      subst hc
      exact ⟨rfl, hheld.1, hheld.2, hdistance⟩
    case object id =>
      have hclass : m.heap.class? id = some k := hk
      exact bind_get (need hm hclass ⟨hclass, hheld.1, hheld.2, hdistance⟩)
    all_goals cases hk

/-! ## Fields -/

/-- Texts have no fields. -/
theorem objectOf {r : MemberRef} (hm : m.Typed l) (hfield : l.HasField n r t) (hv : m.heap.Conforms v (.ref n)) :
    TypeSafe l (ClassTree.objectOf v member) m fun id _ => v = .object id := by
  rcases hv.null_or_instance with rfl | ⟨k, hk, hdistance⟩
  · exact fail hm (.inl trivial)
  · cases v
    case str s =>
      cases hk
      obtain ⟨i, s, -, hs, -⟩ := hfield.slot _ (hm.holds hl (v := .str s) rfl).1 hdistance
      cases hs
    case object id => exact pure hm rfl
    all_goals cases hk

theorem readField {r : MemberRef} (hm : m.Typed l) (hfield : l.HasField n r t) (hv : m.heap.Conforms v (.ref n)) :
    TypeSafe l (ClassTree.readField (·.slot? r.cls r.name) v r.name) m fun w h => h.Conforms w t := by
  refine bind (objectOf hl hm hfield hv) fun id m₁ h₁ hid => ?_
  subst hid
  refine bind (classOf hl h₁.typed (h₁.conforms hv) r.name) fun c m₂ h₂ hc => ?_
  obtain ⟨hclass, hheld, -, hdistance⟩ := hc
  obtain ⟨i, s, hi, hs, rfl⟩ := hfield.slot c hheld hdistance
  obtain ⟨o, ho, rfl⟩ := Option.map_eq_some_iff.1 hclass
  obtain ⟨hsize, hvalues⟩ := h₂.typed.heap id o ho
  have hlt : i < o.fields.size := by
    rw [hsize]
    exact (List.getElem?_eq_some_iff.1 hs).1
  have hget : m₂.heap.field? id i = some o.fields[i] := by
    rw [Heap.field?, ho, Option.bind_some, Array.getElem?_eq_getElem hlt]
  exact need_bind hi (bind_get (need h₂.typed hget (hvalues i s _ hs (Array.getElem?_eq_getElem hlt))))

theorem writeField {r : MemberRef} (hm : m.Typed l) (hfield : l.HasField n r t) (hv : m.heap.Conforms v (.ref n))
    (hw : m.heap.Conforms w t) :
    TypeSafe l (ClassTree.writeField (·.slot? r.cls r.name) v r.name w) m fun _ _ => True := by
  refine bind (objectOf hl hm hfield hv) fun id m₁ h₁ hid => ?_
  subst hid
  refine bind (classOf hl h₁.typed (h₁.conforms hv) r.name) fun c m₂ h₂ hc => ?_
  obtain ⟨hclass, hheld, -, hdistance⟩ := hc
  obtain ⟨i, s, hi, hs, rfl⟩ := hfield.slot c hheld hdistance
  have hconforms := h₂.conforms (h₁.conforms hw)
  refine need_bind hi (need_bind hs (ask_bind hconforms (bind_get ?_)))
  split
  · exact onHeap h₂.typed (fun _ => Heap.class?_setField _ _ _ _ _) (h₂.typed.heap.setField hclass hs hconforms) trivial
  · rename_i hslot
    obtain ⟨o, ho, rfl⟩ := Option.map_eq_some_iff.1 hclass
    refine absurd ?_ hslot
    rw [Heap.hasSlot, Heap.field?, ho, Option.bind_some, Array.getElem?_eq_getElem, Option.isSome_some]
    rw [(h₂.typed.heap id o ho).1]
    exact (List.getElem?_eq_some_iff.1 hs).1

end TypeSafe

/-! ## Host methods -/

/-- Whether a host method may be declared in a class with these types. -/
def Native.fits (n : Native) (cls : Name) (params : List Ty) (ret : Ty) : Bool :=
  match n with
  | .init => ret = .void
  | .objectToString => ret = .string
  | .objectHashCode => ret = .int
  | .objectEquals => ret = .boolean
  | .stringLength => cls = .string && ret = .int
  | .stringIsEmpty => cls = .string && ret = .boolean
  | .stringConcat => cls = .string && params = [.string] && ret = .string
  | .stringToString => cls = .string && ret = .string
  | .builderInit => cls = .stringBuilder && params = [.string] && ret = .void
  | .builderAppend => cls = .stringBuilder && ret = .stringBuilder
  | .builderLength => cls = .stringBuilder && ret = .int
  | .builderToString => cls = .stringBuilder && ret = .string

/-- Whether a method of a host class needs an instance and is done by a host method with its types. -/
def LoadedMethod.isHosted (m : LoadedMethod) (cls : Name) : Bool :=
  match m.body with
  | .native n => n.fits cls m.params m.ret && !m.isStatic
  | _ => false

theorem LoadedClass.isHosted_of_mem_hosts : ∀ k ∈ hosts, ∀ m ∈ k.methods, m.isHosted k.name = true := by decide

namespace TypeSafe

variable (hl : l.WellFormed) (hbuilder : ∀ k, l.Holds k → (k.distance? .stringBuilder).isSome = true →
  k.host = some .stringBuilder) {v : Value} {member : String}

theorem text (hm : m.Typed l) (hv : m.heap.Conforms v .string) :
    TypeSafe l (Native.text v member) m fun _ _ => True := by
  rcases hv.null_or_instance with rfl | ⟨k, hk, hdistance⟩
  · exact fail hm (.inl trivial)
  · cases v
    case str s => exact pure hm trivial
    case object id =>
      -- No object is a text.
      rw [(hm.objects id k hk).2.2] at hdistance
      cases hdistance
    all_goals cases hk

include hl hbuilder

theorem builder (hm : m.Typed l) (hv : m.heap.Conforms v .stringBuilder) :
    TypeSafe l (Native.builder v member) m fun _ _ => True := by
  rcases hv.null_or_instance with rfl | ⟨k, hk, hdistance⟩
  · exact fail hm (.inl trivial)
  · cases v
    case str s =>
      cases hk
      exact absurd hdistance (by decide)
    case object id =>
      refine bind_get ?_
      have hclass : m.heap.class? id = some k := hk
      rw [if_pos (by rw [hclass]; simpa using hbuilder k (hm.holds hl hk).1 hdistance)]
      exact pure hm trivial
    all_goals cases hk

omit hl hbuilder in
theorem hash (hm : m.Typed l) : TypeSafe l (Native.hash v) m fun w h => h.Conforms w .int := by
  cases v
  case null => exact fail hm (.inl trivial)
  case object id => exact bind_get (pure hm rfl)
  all_goals exact pure hm rfl

omit hl hbuilder in
theorem modifyBuffer (hm : m.Typed l) (id : Nat) (f : String → String) :
    TypeSafe l (Run.onHeap (·.modifyBuffer id f)) m fun _ _ => True :=
  onHeap hm (fun _ => Heap.class?_modifyBuffer _ _ _ _) (hm.heap.modifyBuffer id f) trivial

/-- A host method that is given a receiver and arguments of its types gives a result of its type, if the texts that it asks
for can be made. -/
theorem native {render : Value → Run String} (hrender : ∀ v m, m.Typed l → TypeSafe l (render v) m fun _ _ => True)
    {n : Native} {cls : Name} {params : List Ty} {ret : Ty} (hn : n.fits cls params ret = true) (hm : m.Typed l)
    (hv : m.heap.Conforms v (.ref cls)) {args : List Value} (hargs : List.Forall₂ m.heap.Conforms args params) :
    TypeSafe l (n.run render v args) m fun w h => h.Conforms w ret := by
  have hfirst : params = [.string] → m.heap.Conforms (args.headD .null) .string := by
    rintro rfl
    obtain _ | ⟨ha, -⟩ := hargs
    exact ha
  have hasked : ∀ {m' : Machine} {id : Nat}, m.Onward l m' → TypeSafe l (Native.buffer id) m' fun _ _ => True :=
    fun h => bind_get (pure h.typed trivial)
  cases n with
  | init =>
    obtain rfl : ret = .void := by simpa [Native.fits] using hn
    exact pure hm rfl
  | objectToString =>
    obtain rfl : ret = .string := by simpa [Native.fits] using hn
    exact bind_get (pure hm rfl)
  | objectHashCode =>
    obtain rfl : ret = .int := by simpa [Native.fits] using hn
    exact hash hm
  | objectEquals =>
    obtain rfl : ret = .boolean := by simpa [Native.fits] using hn
    exact pure hm rfl
  | stringLength =>
    obtain ⟨rfl, rfl⟩ : cls = .string ∧ ret = .int := by simpa [Native.fits] using hn
    exact bind (text hm hv) fun _ _ h _ => pure h.typed rfl
  | stringIsEmpty =>
    obtain ⟨rfl, rfl⟩ : cls = .string ∧ ret = .boolean := by simpa [Native.fits] using hn
    exact bind (text hm hv) fun _ _ h _ => pure h.typed rfl
  | stringConcat =>
    obtain ⟨⟨rfl, hparams⟩, rfl⟩ : (cls = .string ∧ params = [.string]) ∧ ret = .string := by simpa [Native.fits] using hn
    refine bind (text hm hv) fun _ m₁ h₁ _ => ?_
    exact bind (text h₁.typed (h₁.conforms (hfirst hparams))) fun _ _ h₂ _ => pure h₂.typed rfl
  | stringToString =>
    obtain ⟨rfl, rfl⟩ : cls = .string ∧ ret = .string := by simpa [Native.fits] using hn
    exact bind (text hm hv) fun _ _ h _ => pure h.typed (h.conforms hv)
  | builderInit =>
    obtain ⟨⟨rfl, hparams⟩, rfl⟩ : (cls = .stringBuilder ∧ params = [.string]) ∧ ret = .void := by
      simpa [Native.fits] using hn
    refine bind (builder hl hbuilder hm hv) fun _ m₁ h₁ _ => ?_
    refine bind (text h₁.typed (h₁.conforms (hfirst hparams))) fun _ m₂ h₂ _ => ?_
    exact bind (modifyBuffer h₂.typed _ _) fun _ _ h₃ _ => pure h₃.typed rfl
  | builderAppend =>
    obtain ⟨rfl, rfl⟩ : cls = .stringBuilder ∧ ret = .stringBuilder := by simpa [Native.fits] using hn
    refine bind (builder hl hbuilder hm hv) fun _ m₁ h₁ _ => bind (hrender _ m₁ h₁.typed) fun _ m₂ h₂ _ => ?_
    refine bind (modifyBuffer h₂.typed _ _) fun _ _ h₃ _ => pure h₃.typed ?_
    exact h₃.conforms (h₂.conforms (h₁.conforms hv))
  | builderLength =>
    obtain ⟨rfl, rfl⟩ : cls = .stringBuilder ∧ ret = .int := by simpa [Native.fits] using hn
    refine bind (builder hl hbuilder hm hv) fun _ m₁ h₁ _ => ?_
    exact bind (hasked h₁) fun _ _ h₂ _ => pure h₂.typed rfl
  | builderToString =>
    obtain ⟨rfl, rfl⟩ : cls = .stringBuilder ∧ ret = .string := by simpa [Native.fits] using hn
    refine bind (builder hl hbuilder hm hv) fun _ m₁ h₁ _ => ?_
    exact bind (hasked h₁) fun _ _ h₂ _ => pure h₂.typed rfl

end TypeSafe

end ClassTree
