import ClassTree.Proofs.ClassFile.RoundTrip
import ClassTree.Proofs.Compile.Limits
import ClassTree.Proofs.Pool

/-!
# Classes that stay below the limits

`Pool.Room k p`: there is room for `k` more constants in the pool, and all that are in it can be written. `Gen.Affords n x Q`:
where there is room for `n` constants, `x` makes something with `Q`, and the rest of the room is left. A class whose texts are
short has a class file if an empty pool has room for its parts and for what its methods afford
(`LoweredClass.exists_generate`).
-/

namespace ClassTree

open Pool (textFits)

/-! ## Room for constants -/

/-- A constant whose text, if it has one, is short enough for a class file. -/
def Constant.Short : Constant → Prop
  | .utf8 s => textFits s = true
  | _ => True

theorem Constant.exists_encode {c : Constant} (h : c.Short) : ∃ bytes, c.encode = .ok bytes := by
  have hpayload : ∃ bytes, c.payload = .ok bytes := by
    cases c with
    | utf8 s =>
      have hfits : s.utf8ByteSize ≤ 65535 := of_decide_eq_true h
      have hlength := Bytes.length_ofText s
      exact ⟨_, by rw [payload, Bytes.count, if_pos (by omega)]; rfl⟩
    | _ => exact ⟨_, rfl⟩
  obtain ⟨bytes, hbytes⟩ := hpayload
  exact ⟨c.tag :: bytes, by rw [encode, hbytes]; rfl⟩

namespace Item

/-- The greatest number of constants that an addition of the item takes. -/
def cost : Item → Nat
  | .utf8 _ | .int _ | .long _ | .double _ => 1
  | .string _ | .cls _ => 2
  | .field _ | .method _ => 5

/-- The texts that enter a pool with the item. -/
def texts : Item → List String
  | .utf8 s | .string s | .cls s => [s]
  | .int _ | .long _ | .double _ => []
  | .field ref | .method ref => [ref.cls, ref.name, ref.descriptor]

end Item

namespace Pool

/-- There is room for `k` more constants, and those that are there can be written. -/
structure Room (k : Nat) (p : Pool) : Prop where
  overflowed : p.overflowed = false
  size : p.size + k ≤ maxEntries
  short : ∀ c ∈ p.constants.toList, c.Short

variable {p : Pool} {k n : Nat}

theorem room_empty (h : k ≤ maxEntries) : Room k empty := by
  refine ⟨rfl, ?_, fun c hc => nomatch hc⟩
  rw [size, empty, Array.size_empty, Nat.zero_add]
  exact h

theorem Room.mono (h : Room n p) (hle : k ≤ n) : Room k p :=
  ⟨h.overflowed, (Nat.add_le_add_left hle _).trans h.size, h.short⟩

theorem Room.add {c : Constant} (h : Room (1 + k) p) (hc : c.Short) : Room k (p.add c).2 := by
  unfold Pool.add
  split
  · exact h.mono (Nat.le_add_left ..)
  · have hsize := h.size
    rw [if_pos (by omega)]
    refine ⟨h.overflowed, ?_, ?_⟩
    · simp only [Pool.size, Array.size_push] at hsize ⊢
      omega
    · intro c' hc'
      rw [Array.toList_push, List.mem_append, List.mem_singleton] at hc'
      rcases hc' with hc' | rfl
      · exact h.short c' hc'
      · exact hc

theorem Room.addUtf8 {s : String} (h : Room (1 + k) p) (hs : textFits s = true) : Room k (p.addUtf8 s).2 := h.add hs

theorem Room.addClass {s : String} (h : Room (2 + k) p) (hs : textFits s = true) : Room k (p.addClass s).2 := by
  rw [addClass_eq]
  rw [show 2 + k = 1 + (1 + k) by omega] at h
  exact (h.addUtf8 hs).add trivial

theorem Room.addMember {m : MemberRef} (h : Room (4 + k) p) (hm : ∀ s ∈ [m.cls, m.name, m.descriptor], textFits s = true) :
    Room k (p.addMember m).2 := by
  rw [show 4 + k = 2 + (1 + (1 + k)) by omega] at h
  have hcls := h.addClass (hm m.cls (by simp))
  have hname := hcls.addUtf8 (hm m.name (by simp))
  have hdescriptor := hname.addUtf8 (hm m.descriptor (by simp))
  rw [addMember_pool]
  exact hdescriptor

/-- An addition of an item takes no more room than the item costs. -/
theorem Room.put {item : Item} (h : Room (item.cost + k) p) (hs : ∀ s ∈ item.texts, textFits s = true) :
    Room k (p.put item).2 := by
  cases item with
  | utf8 s => exact h.addUtf8 (hs s List.mem_cons_self)
  | int n | long n | double d => exact h.add trivial
  | string s =>
    rw [Item.cost, show 2 + k = 1 + (1 + k) by omega] at h
    rw [Pool.put, addString_eq]
    exact (h.addUtf8 (hs s List.mem_cons_self)).add trivial
  | cls s => exact h.addClass (hs s List.mem_cons_self)
  | field ref =>
    rw [Item.cost, show 5 + k = 4 + (1 + k) by omega] at h
    rw [Pool.put, addFieldRef_eq]
    exact (h.addMember hs).add trivial
  | method ref =>
    rw [Item.cost, show 5 + k = 4 + (1 + k) by omega] at h
    rw [Pool.put, addMethodRef_eq]
    exact (h.addMember hs).add trivial

end Pool

open Pool (Room)

/-! ## Code -/

namespace Gen

/-- Where there is room for `n` constants, something with `Q` is made, and the rest of the room is left. -/
def Affords {α : Type} (n : Nat) (x : Gen α) (Q : α → Prop) : Prop :=
  ∀ (p : Pool) (k : Nat), Room (n + k) p → ∃ a q, x p = .ok a q ∧ Room k q ∧ Q a

namespace Affords

variable {α β : Type} {n j : Nat} {Q : α → Prop} {R : β → Prop}

theorem mono {x : Gen α} (hx : Affords n x Q) (hle : n ≤ j) : Affords j x Q := by
  intro p k hp
  obtain ⟨a, q, hxp, hq, ha⟩ := hx p k (hp.mono (Nat.add_le_add_right hle k))
  exact ⟨a, q, hxp, hq, ha⟩

theorem pure {a : α} (h : Q a) : Affords 0 (Pure.pure a) Q := by
  intro p k hp
  rw [Nat.zero_add] at hp
  exact ⟨a, p, rfl, hp, h⟩

theorem bind {x : Gen α} {f : α → Gen β} (hx : Affords n x Q) (hf : ∀ a, Q a → Affords j (f a) R) :
    Affords (n + j) (x >>= f) R := by
  intro p k hp
  rw [Nat.add_assoc] at hp
  obtain ⟨a, q, hxp, hq, ha⟩ := hx p (j + k) hp
  obtain ⟨b, q', hfq, hq', hb⟩ := hf a ha q k hq
  refine ⟨b, q', ?_, hq', hb⟩
  change EStateM.bind x f p = .ok b q'
  unfold EStateM.bind
  rw [hxp]
  exact hfq

theorem ofExcept_bind {x : Except Diagnostic α} {f : α → Gen β} {a : α} (hx : x = .ok a) (hf : Affords n (f a) R) :
    Affords n (Gen.ofExcept x >>= f) R := by
  rw [hx]
  exact hf

/-- An index costs what the item costs that it is made for. -/
theorem put {i : Item} (hs : ∀ s ∈ i.texts, textFits s = true) :
    Affords i.cost (MonadStateOf.modifyGet fun p : Pool => p.put i) fun _ => True :=
  fun p _ hp => ⟨(p.put i).1, (p.put i).2, rfl, hp.put hs, trivial⟩

/-- So does an instruction. -/
theorem instr {i : Item} (f : UInt16 → Instr) (hs : ∀ s ∈ i.texts, textFits s = true) :
    Affords i.cost (Gen.instr fun p => Pool.instr f (p.put i)) fun code => ∃ index, code = .one (f index) :=
  fun p _ hp => ⟨.one (f (p.put i).1), (p.put i).2, rfl, hp.put hs, _, rfl⟩

end Affords

end Gen

open Gen

/-! ## Class files -/

/-- A class file within the limits. -/
structure ClassFile.Small (f : ClassFile) : Prop where
  constants : f.constants.size < 65536
  short : ∀ c ∈ f.constants.toList, Constant.Short c
  inner : f.inner.length < 65536
  fields : f.fields.length < 65536
  methods : f.methods.length < 65536
  code : ∀ m ∈ f.methods, m.code.size < 4294967296

theorem exists_mapM_ok {α β ε : Type} {f : α → Except ε β} {xs : List α} (h : ∀ x ∈ xs, ∃ y, f x = .ok y) :
    ∃ ys, xs.mapM f = .ok ys := by
  induction xs with
  | nil => exact ⟨[], rfl⟩
  | cons x xs ih =>
    obtain ⟨y, hy⟩ := h x List.mem_cons_self
    obtain ⟨ys, hys⟩ := ih fun x' hx' => h x' (List.mem_cons_of_mem _ hx')
    exact ⟨y :: ys, mapM_eq_ok.2 (.cons hy (mapM_eq_ok.1 hys))⟩

/-- A class file within the limits can be written. -/
theorem ClassFile.Small.exists_encode {f : ClassFile} (h : f.Small) : ∃ bytes, f.encode = .ok bytes := by
  have hmethod : ∀ m ∈ f.methods, ∃ bytes, MethodInfo.encode m = .ok bytes := by
    intro m hm
    rw [MethodInfo.encode, Bytes.longCount, if_pos (h.code m hm)]
    exact ⟨_, rfl⟩
  obtain ⟨constants, hconstants⟩ := exists_mapM_ok fun c hc => Constant.exists_encode (h.short c hc)
  obtain ⟨methods, hmethods⟩ := exists_mapM_ok hmethod
  have hcount : ∀ {what : Countable} {n : Nat}, n < 65536 → Bytes.count what n = .ok (Bytes.ofNat 2 n) := fun h => if_pos h
  rw [encode, hcount h.constants, hconstants, hcount h.inner, hcount h.fields, hcount h.methods, hmethods]
  exact ⟨_, rfl⟩

namespace LoweredClass

/-- The texts of the parts of a class are short enough for a class file. -/
structure Short (r : Registry) (l : LoweredClass) : Prop where
  name : textFits l.name.text = true
  superclass : textFits l.superclass.text = true
  enclosing : ∀ n ∈ l.enclosing, textFits n.text = true ∧ textFits l.name.simpleName = true
  nested : ∀ n ∈ r.classes, n.enclosing = some l.name → textFits n.name.text = true ∧ textFits n.name.simpleName = true
  fields : ∀ f ∈ l.fields, textFits f.name = true ∧ textFits f.ty.descriptor = true
  methods : ∀ m ∈ l.methods, textFits m.name = true ∧ textFits m.descriptor = true

/-- The room that a class takes if its methods take no more than `spent`. -/
def cost (r : Registry) (spent : LoweredMethod → Nat) (l : LoweredClass) : Nat :=
  2 + (2 + (3 + (3 * (r.classes.filter (·.enclosing = some l.name)).length + (2 * l.fields.length +
    (l.methods.map fun m => spent m + 2).sum))))

variable {b : Binding} {r : Registry} {entry : ClassEntry} {l : LoweredClass} {spent : LoweredMethod → Nat} {k : Nat}
  {p : Pool}

/-- Nothing is too much for a class file within the limits. -/
theorem limitErrors_eq_nil {f : ClassFile} (h : f.Small) (name : String) : limitErrors name f false = [] := by
  have hcounts : ∀ x ∈ [(f.fields.length, "field"), (f.methods.length, "method"), (f.inner.length, "inner class")],
      ¬65535 < x.1 := by
    have hfields := h.fields
    have hmethods := h.methods
    have hinner := h.inner
    intro x hx
    simp only [List.mem_cons, List.not_mem_nil, or_false] at hx
    rcases hx with rfl | rfl | rfl
    all_goals
      dsimp only
      omega
  have hcode : f.methods.find? (fun m => m.code.size ≥ 4294967296) = none := by
    rw [List.find?_eq_none]
    intro m hm
    have hm := h.code m hm
    rw [decide_eq_true_eq]
    omega
  rw [limitErrors, hcode]
  dsimp only
  rw [List.find?_eq_none.2 fun x hx => by simpa using hcounts x hx]
  rfl

theorem room_ownNesting (hl : l.Short r) (thisClass : UInt16) (h : Room (3 + k) p) :
    Room k (l.ownNesting thisClass p).2 ∧ (l.ownNesting thisClass p).1.length ≤ 1 := by
  unfold ownNesting
  split
  · exact ⟨h.mono (Nat.le_add_left ..), Nat.zero_le 1⟩
  · rename_i outer henclosing
    obtain ⟨houter, hsimple⟩ := hl.enclosing outer henclosing
    rw [show 3 + k = 2 + (1 + k) by omega] at h
    have hleft := (h.addClass houter).addUtf8 hsimple
    dsimp only
    exact ⟨hleft, Nat.le_refl 1⟩

/-- A table takes the room of all its parts together, and has all of them. -/
theorem room_table {α β : Type} {make : α → Pool → β × Pool} {n : Nat} {items : List α}
    (hmake : ∀ a ∈ items, ∀ {p k}, Room (n + k) p → Room k (make a p).2) (h : Room (n * items.length + k) p) :
    Room k (table make items p).2 ∧ (table make items p).1.size = items.length := by
  -- the room that the last part takes is left by all others
  induction items using List.reverseRecOn generalizing k with
  | nil => exact ⟨h.mono (Nat.le_add_left ..), rfl⟩
  | append_singleton items a ih =>
    rw [List.length_append, List.length_singleton, Nat.mul_add_one, Nat.add_assoc] at h
    obtain ⟨hroom, hsize⟩ := ih (fun a' ha' => hmake a' (List.mem_append_left _ ha')) h
    rw [table_concat]
    refine ⟨hmake a (List.mem_append_right _ List.mem_cons_self) hroom, ?_⟩
    rw [Array.size_push, hsize, List.length_append, List.length_singleton]

theorem room_nesting (hl : l.Short r) (thisClass : UInt16) : ∀ n ∈ r.classes.filter (·.enclosing = some l.name), ∀ {p k},
    Room (3 + k) p → Room k (nesting thisClass n p).2 := by
  intro n hn p k h
  obtain ⟨hmem, henclosing⟩ := List.mem_filter.1 hn
  obtain ⟨hname, hsimple⟩ := hl.nested n hmem (of_decide_eq_true henclosing)
  rw [show 3 + k = 2 + (1 + k) by omega] at h
  have hleft := (h.addClass hname).addUtf8 hsimple
  simp only [nesting]
  exact hleft

theorem room_fieldInfo (hl : l.Short r) : ∀ f ∈ l.fields, ∀ {p k}, Room (2 + k) p → Room k (fieldInfo f p).2 := by
  intro f hf p k h
  obtain ⟨hname, hdescriptor⟩ := hl.fields f hf
  rw [show 2 + k = 1 + (1 + k) by omega] at h
  have hleft := (h.addUtf8 hname).addUtf8 hdescriptor
  simp only [fieldInfo]
  exact hleft

theorem methodInfo_affords {m : LoweredMethod} {limit : Nat} (hname : textFits m.name = true)
    (hdescriptor : textFits m.descriptor = true)
    (h : Affords (spent m) (compileMethod b (context r entry m) m) fun made => made.code.size < limit) :
    Affords (spent m + 2) (methodInfo b r entry m) fun info => info.code.size < limit := by
  apply Affords.bind h
  rintro ⟨maxLocals, code⟩ hcode
  have hputName := Affords.put (i := .utf8 m.name) fun s hs => List.mem_singleton.1 hs ▸ hname
  have hputDescriptor := Affords.put (i := .utf8 m.descriptor) fun s hs => List.mem_singleton.1 hs ▸ hdescriptor
  exact hputName.bind (j := 1) fun name _ => hputDescriptor.bind (j := 0) fun descriptor _ => .pure hcode

/-- Methods that can be afforded all become parts of the table. -/
theorem room_methodTable {ms : List LoweredMethod} {limit : Nat}
    (hmake : ∀ m ∈ ms, Affords (spent m + 2) (methodInfo b r entry m) fun info => info.code.size < limit)
    (done : Array MethodInfo) (found : Array Diagnostic) (hdone : ∀ info ∈ done.toList, info.code.size < limit)
    (h : Room ((ms.map fun m => spent m + 2).sum + k) p) :
    ∃ infos q, methodTable b r entry ms done found p = ((infos, found), q) ∧ Room k q ∧
      infos.size = done.size + ms.length ∧ ∀ info ∈ infos.toList, info.code.size < limit := by
  induction ms generalizing done p with
  | nil => exact ⟨done, p, rfl, h.mono (Nat.le_add_left ..), rfl, hdone⟩
  | cons m ms ih =>
    rw [List.map_cons, List.sum_cons, Nat.add_assoc] at h
    obtain ⟨info, q, hinfo, hq, hsize⟩ := hmake m List.mem_cons_self p _ h
    have hpushed : ∀ info' ∈ (done.push info).toList, info'.code.size < limit := by
      intro info' hinfo'
      rw [Array.toList_push, List.mem_append, List.mem_singleton] at hinfo'
      rcases hinfo' with hinfo' | rfl
      · exact hdone info' hinfo'
      · exact hsize
    obtain ⟨infos, q', htable, hq', hinfos, hall⟩ := ih (fun m' hm' => hmake m' (List.mem_cons_of_mem _ hm')) _
      hpushed hq
    refine ⟨infos, q', ?_, hq', ?_, hall⟩
    · rw [methodTable, hinfo]
      exact htable
    · rw [hinfos, Array.size_push, List.length_cons]
      omega

/-- Every method takes room for its name and its descriptor, so the room bounds how many there are. -/
theorem length_methods_le (ms : List LoweredMethod) : 2 * ms.length ≤ (ms.map fun m => spent m + 2).sum := by
  induction ms with
  | nil => exact Nat.le_refl 0
  | cons m ms ih =>
    rw [List.map_cons, List.sum_cons, List.length_cons]
    omega

theorem exists_assemble (hl : l.Short r)
    (hmethods : ∀ m ∈ l.methods,
      Affords (spent m) (compileMethod b (context r entry m) m) fun made => made.code.size < 4294967296)
    (hcost : l.cost r spent ≤ Pool.maxEntries) : ∃ f, l.assemble b r entry = .ok f ∧ f.Small := by
  have hroom := Pool.room_empty hcost
  rw [cost] at hroom hcost
  have hcount : 2 * l.methods.length ≤ (l.methods.map fun m => spent m + 2).sum := length_methods_le l.methods
  have hthis := hroom.addClass hl.name
  have hsuper := hthis.addClass hl.superclass
  simp only [assemble]
  generalize Pool.empty.addClass l.name.text = this at hthis hsuper
  generalize this.2.addClass l.superclass.text = super at hsuper
  obtain ⟨hown, hownLength⟩ := room_ownNesting hl this.1 hsuper
  generalize l.ownNesting this.1 super.2 = own at hown hownLength
  obtain ⟨hnested, hnestedSize⟩ := room_table (room_nesting hl this.1) hown
  generalize table (nesting this.1) (r.classes.filter (·.enclosing = some l.name)) own.2 = nested at hnested hnestedSize
  obtain ⟨hfields, hfieldsSize⟩ := room_table (room_fieldInfo hl) hnested
  generalize table fieldInfo l.fields nested.2 = fields at hfields hfieldsSize
  have hmake := fun m hm => methodInfo_affords (hl.methods m hm).1 (hl.methods m hm).2 (hmethods m hm)
  obtain ⟨infos, q, hinfos, hq, hinfosSize, hcode⟩ := room_methodTable (k := 0) hmake #[] #[]
    (fun _ h => absurd h List.not_mem_nil) hfields
  rw [hinfos]
  dsimp only
  rw [hq.overflowed]
  have hmax : Pool.maxEntries = 65534 := rfl
  have hsize : q.constants.size + 0 ≤ Pool.maxEntries := hq.size
  have hinfosLength : infos.size = l.methods.length := by
    rw [hinfosSize]
    exact Nat.zero_add _
  have hlength : ∀ {α : Type} (xs : Array α), xs.size < 65536 → xs.toList.length < 65536 := by
    intro α xs hxs
    rwa [Array.length_toList]
  have hsmall : ClassFile.Small {
      constants := q.constants, access := l.modifiers, thisClass := this.1, superClass := super.1
      inner := own.1 ++ nested.1.toList, fields := fields.1.toList, methods := infos.toList } := by
    refine ⟨?_, hq.short, ?_, ?_, ?_, hcode⟩
    · dsimp only
      omega
    · rw [List.length_append, Array.length_toList]
      omega
    · exact hlength fields.1 (by omega)
    · exact hlength infos (by omega)
  rw [limitErrors_eq_nil hsmall]
  exact ⟨_, rfl, hsmall⟩

/-- A class with short texts has a class file if there is room for its parts and its methods can be afforded. -/
theorem exists_generate (hentry : r.get? l.name = some entry) (hl : l.Short r)
    (hmethods : ∀ m ∈ l.methods,
      Affords (spent m) (compileMethod b (context r entry m) m) fun made => made.code.size < 4294967296)
    (hcost : l.cost r spent ≤ Pool.maxEntries) : ∃ bytes, l.generate b r = .ok bytes := by
  obtain ⟨f, hf, hsmall⟩ := exists_assemble hl hmethods hcost
  obtain ⟨bytes, hbytes⟩ := hsmall.exists_encode
  exact ⟨bytes, generate_of_encode hentry hf hbytes⟩

end LoweredClass

end ClassTree
