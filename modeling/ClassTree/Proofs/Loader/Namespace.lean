import ClassTree.Proofs.Descriptor
import ClassTree.Proofs.Loader.Verified

/-!
# The name space of a loader

`Loader.WellFormed`: the host classes are bound to their names, and every class is in its place. That is said in
`Loader.InPlace`: the class is bound under its own name and its superclass under its own, the superclasses end in the
root class, the slots are those of the superclass and then the class's own fields, no field having two, and a class is
nested iff its name says so.

* Every loader that is reached by definitions is well formed (`Loader.Reachable.wellFormed`), and no definition binds a
  name anew (`Loader.Grows.extended`).
* A field has the same slot in all subclasses (`Loader.WellFormed.slot?_of_mem_chain`), and every slot
  is that of its field (`Loader.InPlace.slot?_eq`).
-/

namespace ClassTree

/-! ## Class files that are loaded -/

namespace ClassFile

/-- What a class file and its superclass say of the class. -/
structure Loads (f : ClassFile) (s c : LoadedClass) : Prop where
  name : f.name?.bind Name.parse? = some c.name
  superclass : c.superclass = some s
  enclosing : ∃ relations, f.inner.mapM f.nestingNames? = some relations ∧ c.enclosing = f.enclosing? relations
  fields : f.fields.mapM f.loadField? = some c.fields
  layout : c.layout = s.layout ++ c.fields.map fun x => ⟨c.name, x.name, x.ty⟩
  host : c.host = none

theorem loads_of_load? {f : ClassFile} {s c : LoadedClass} (h : f.load? s = some c) : f.Loads s c := by
  simp only [load?, Option.bind_eq_bind, Option.bind_eq_some_iff, Option.pure_def, Option.some.injEq] at h
  obtain ⟨name, hname, relations, hrelations, nested, -, fields, hfields, methods, -, rfl⟩ := h
  exact ⟨Option.bind_eq_some_iff.2 hname, rfl, ⟨relations, hrelations, rfl⟩, hfields, rfl, rfl⟩

/-- Name, nesting relations and fields of a class file that is accepted. -/
theorem verify_eq_ok {f : ClassFile} (h : f.verify = .ok ()) :
    ∃ name, f.name?.bind Name.parse? = some name ∧ f.verifyInner name = .ok () ∧ f.verifyFields = .ok () := by
  simp only [verify, verifyHeader, bind_eq_ok, orFail_eq_ok, pure_eq_ok] at h
  obtain ⟨-, -, name, ⟨text, htext, name', hparse, -, -, -, -, superName, -, -, -, rfl⟩, _, hinner, _, hfields, -⟩ := h
  exact ⟨name', by rw [htext]; exact hparse, hinner, hfields⟩

/-- The names of fields that are accepted are those of the loaded fields. -/
theorem nodup_fieldNames {f : ClassFile} {fields : List LoadedField} (hv : f.verifyFields = .ok ())
    (hfields : f.fields.mapM f.loadField? = some fields) : (fields.map LoadedField.name).Nodup := by
  have hsame : ∀ {infos : List FieldInfo} {names : List String} {fields : List LoadedField},
      List.Forall₂ f.FieldAccepted infos names → List.Forall₂ (fun i x => f.loadField? i = some x) infos fields →
      fields.map LoadedField.name = names := by
    intro infos names fields hnames hload
    induction hnames generalizing fields with
    | nil => cases hload; rfl
    | cons haccepted _ ih =>
      obtain ⟨x, xs, hx, hxs, rfl⟩ := List.forall₂_cons_left_iff.1 hload
      simp only [loadField?, memberName?_eq_some haccepted.name, Option.bind_eq_bind, Option.bind_some,
        Option.bind_eq_some_iff, Option.pure_def, Option.some.injEq] at hx
      obtain ⟨t, -, rfl⟩ := hx
      rw [List.map_cons, ih hxs]
  obtain ⟨names, hnames, hnodup⟩ := verifyFields_eq_ok.1 hv
  rw [hsame hnames (mapM_eq_some.1 hfields)]
  exact hnodup

/-- A fold that keeps the last of values that are all the same. -/
theorem foldl_last {α β : Type} {p : α → Prop} [DecidablePred p] {g : α → β} {v : β} {rs : List α}
    (h : ∀ r ∈ rs, p r → g r = v) (init : β) :
    rs.foldl (fun found r => if p r then g r else found) init = if ∃ r ∈ rs, p r then v else init := by
  induction rs generalizing init with
  | nil => simp
  | cons r rs ih =>
    rw [List.foldl_cons, ih fun r' hr' => h r' (List.mem_cons_of_mem _ hr')]
    by_cases hr : p r
    · simp [hr, h r List.mem_cons_self hr]
    · simp [hr]

/-- The enclosing class that accepted nesting relations give is the one that the name says. -/
theorem enclosing?_eq {f : ClassFile} {name : Name} {relations : List (String × String)}
    (hname : f.name? = some name.text) (hv : f.verifyInner name = .ok ())
    (hrelations : f.inner.mapM f.nestingNames? = some relations) : f.enclosing? relations = name.enclosing := by
  obtain ⟨inners, hinners, hown⟩ := verifyInner_eq_ok hv
  have hloaded := mapM_eq_some.1 hrelations
  have hpair : ∀ {i : InnerInfo} {r : String × String} {inner : String}, f.nestingNames? i = some r →
      f.InnerAccepted name i inner → r.1 = inner := by
    intro i r inner hr haccepted
    unfold nestingNames? at hr
    split at hr
    · rename_i hinner _
      cases hr
      exact Option.some.inj (hinner.symm.trans haccepted.names)
    · cases hr
  -- Every relation of the class itself gives the class that encloses its name.
  have hsame : ∀ r ∈ relations, f.name? = some r.1 → Name.parse? r.2 = name.enclosing := by
    intro r hr hthis
    obtain ⟨i, hi, hri⟩ := exists_left hloaded hr
    obtain ⟨inner, -, haccepted⟩ := exists_right hinners hi
    have hinner := hpair hri haccepted
    obtain ⟨outer, innerName, houter, hparse, hencl, -, -⟩ := haccepted.outer
    rw [hname, hinner, Option.some.injEq] at hthis
    rw [← hthis, Name.parse?_text, Option.some.injEq] at hparse
    subst hparse
    obtain ⟨e, he, rfl⟩ := Option.map_eq_some_iff.1 hencl
    have hr2 : r.2 = e.text := by
      simp only [nestingNames?, haccepted.names, houter, Option.some.injEq] at hri
      rw [← hri]
    rw [hr2, Name.parse?_text, he]
  have hfold := foldl_last (p := fun r : String × String => f.name? = some r.1) hsame none
  rw [enclosing?]
  refine hfold.trans ?_
  split
  · rfl
  · rename_i hnone
    -- Without a relation of its own the class is not nested.
    have hnested : name.isNested = false := by
      rw [← Bool.not_eq_true]
      intro h
      obtain ⟨i, hi, haccepted⟩ := exists_left hinners (hown h)
      obtain ⟨r, hr, hri⟩ := exists_right hloaded hi
      exact hnone ⟨r, hr, by rw [hname, hpair hri haccepted]⟩
    rw [eq_comm, ← Option.not_isSome_iff_eq_none, Name.isSome_enclosing]
    have hlength : ¬1 < name.path.length := by simpa [Name.isNested] using hnested
    rw [Classical.not_not, ← List.length_eq_zero_iff, List.length_dropLast]
    omega

end ClassFile

/-! ## Well-formed name spaces -/

namespace Loader

/-- A class that a loader holds is in its place among the others. -/
structure InPlace (l : Loader) (c : LoadedClass) : Prop where
  bound : l.resolve? c.name.text = some c
  /-- Only the root class has no superclass. -/
  root : c.superclass = none → c = .object
  superclass : ∀ s, c.superclass = some s → l.resolve? s.name.text = some s ∧ s.access.isFinal = false
  chain : c.chain.getLast? = some .object
  acyclic : (c.chain.map LoadedClass.name).Nodup
  layout : ∀ s, c.superclass = some s → c.layout = s.layout ++ c.fields.map fun x => ⟨c.name, x.name, x.ty⟩
  /-- The slots of an instance belong to the class and its superclasses. -/
  owners : ∀ x ∈ c.layout, x.owner ∈ c.chain.map LoadedClass.name
  slots : (c.layout.map fun x => (x.owner, x.name)).Nodup
  enclosing : c.host = none → c.enclosing = c.name.enclosing ∧ (c.enclosing.isSome = true ↔ '$' ∈ c.name.text.toList)

/-- The host classes are bound to their names, and every class is in its place under its own name. -/
structure WellFormed (l : Loader) : Prop where
  hosts : ∀ c ∈ LoadedClass.hosts, l.resolve? c.name.text = some c
  named : ∀ name c, l.resolve? name = some c → c.name.text = name
  inPlace : ∀ name c, l.resolve? name = some c → l.InPlace c

/-- The second loader binds every name that the first binds, and to the same class. -/
def Extends (l k : Loader) : Prop := ∀ name c, l.resolve? name = some c → k.resolve? name = some c

theorem extends_insert {l : Loader} {name : String} {c : LoadedClass} (h : l.contains name = false) :
    l.Extends ⟨l.classes.insert name c⟩ := by
  intro n k hk
  rw [resolve?_insert, if_neg, hk]
  rintro rfl
  simp [contains, hk] at h

theorem kept_extends (l : Loader) : Kept l.Extends := by
  intro k name f c h hlink n d hd
  exact extends_insert (link_eq_ok hlink).2.2.1 n d (h n d hd)

/-- Only where the superclass is bound depends on the loader. -/
theorem InPlace.mono {l k : Loader} {c : LoadedClass} (h : l.InPlace c) (hext : l.Extends k) : k.InPlace c where
  bound := hext _ _ h.bound
  root := h.root
  superclass s hs := ⟨hext _ _ (h.superclass s hs).1, (h.superclass s hs).2⟩
  chain := h.chain
  acyclic := h.acyclic
  layout := h.layout
  owners := h.owners
  slots := h.slots
  enclosing := h.enclosing

/-- The superclasses of a class of a well-formed loader are bound under their names. -/
theorem WellFormed.resolve?_of_mem_chain {l : Loader} (h : l.WellFormed) {c k : LoadedClass} (hk : k ∈ c.chain)
    (hc : l.resolve? c.name.text = some c) : l.resolve? k.name.text = some k := by
  match c with
  | ⟨_, _, none, _, _, _, _, _, _, _⟩ =>
    rw [LoadedClass.chain, List.mem_singleton] at hk
    rw [hk]
    exact hc
  | ⟨_, _, some s, _, _, _, _, _, _, _⟩ =>
    rw [LoadedClass.chain] at hk
    rcases List.mem_cons.1 hk with rfl | hk
    · exact hc
    · exact h.resolve?_of_mem_chain hk ((h.inPlace _ _ hc).superclass s rfl).1

theorem inPlace_of_mem_hosts {l : Loader} (hhosts : ∀ c ∈ LoadedClass.hosts, l.resolve? c.name.text = some c)
    {c : LoadedClass} (hc : c ∈ LoadedClass.hosts) : l.InPlace c := by
  have hbound := hhosts c hc
  have hobject := hhosts .object (by simp [LoadedClass.hosts])
  simp only [LoadedClass.hosts, List.mem_cons, List.not_mem_nil, or_false] at hc
  rcases hc with rfl | rfl | rfl
  · refine ⟨hbound, fun _ => rfl, fun _ h => ?_, rfl, by decide, fun _ h => ?_, fun _ h => ?_,
      by simp [LoadedClass.object, LoadedClass.ofHost], fun h => ?_⟩
    all_goals cases h
  · refine ⟨hbound, fun h => ?_, ?_, rfl, by decide, ?_, fun _ h => ?_, by simp [LoadedClass.string, LoadedClass.ofHost],
      fun h => ?_⟩
    · cases h
    · rintro s ⟨⟩
      exact ⟨hobject, by decide⟩
    · rintro s ⟨⟩
      rfl
    · cases h
    · cases h
  · refine ⟨hbound, fun h => ?_, ?_, rfl, by decide, ?_, fun _ h => ?_,
      by simp [LoadedClass.stringBuilder, LoadedClass.ofHost], fun h => ?_⟩
    · cases h
    · rintro s ⟨⟩
      exact ⟨hobject, by decide⟩
    · rintro s ⟨⟩
      rfl
    · cases h
    · cases h

theorem wellFormed_boot : boot.WellFormed := by
  have hhosts : ∀ c ∈ LoadedClass.hosts, boot.resolve? c.name.text = some c := fun c hc => resolve?_boot hc
  exact ⟨hhosts, fun _ _ h => (mem_hosts_of_resolve? h).2,
    fun _ _ h => inPlace_of_mem_hosts hhosts (mem_hosts_of_resolve? h).1⟩

/-- A class that was linked is in its place once it is added. -/
theorem WellFormed.inPlace_of_link {l : Loader} (h : l.WellFormed) {name : String} {f : ClassFile} {c : LoadedClass}
    (hlink : l.link name f = .ok c) : (⟨l.classes.insert name c⟩ : Loader).InPlace c ∧ c.name.text = name := by
  obtain ⟨hverify, hname, hnew, superName, s, -, hs, hfinal, hload⟩ := link_eq_ok hlink
  obtain ⟨n, hn, hinner, hfields⟩ := ClassFile.verify_eq_ok hverify
  have hloads := ClassFile.loads_of_load? hload
  obtain rfl : n = c.name := Option.some.inj (hn.symm.trans hloads.name)
  have htext : c.name.text = name := by
    rw [hname] at hn
    exact Name.text_of_parse? hn
  have hbound : l.resolve? s.name.text = some s := by
    rw [h.named _ _ hs]
    exact hs
  have hplace := h.inPlace _ _ hs
  have hext : l.Extends ⟨l.classes.insert name c⟩ := extends_insert hnew
  have hchain : c.chain = c :: s.chain := by rw [LoadedClass.chain_eq, hloads.superclass]; rfl
  -- The superclasses are bound already, the name of the class is not.
  have hfresh : c.name ∉ s.chain.map LoadedClass.name := by
    intro hmem
    obtain ⟨k, hk, hkname⟩ := List.mem_map.1 hmem
    have := h.resolve?_of_mem_chain hk hbound
    rw [hkname, htext] at this
    simp [contains, this] at hnew
  obtain ⟨relations, hrelations, hencl⟩ := hloads.enclosing
  have henclosing : c.enclosing = c.name.enclosing := by
    rw [hencl]
    exact ClassFile.enclosing?_eq (by rw [hname, htext]) hinner hrelations
  refine ⟨⟨?_, ?_, ?_, ?_, ?_, ?_, ?_, ?_, ?_⟩, htext⟩
  · rw [resolve?_insert, if_pos htext.symm]
  · intro hnone
    rw [hloads.superclass] at hnone
    cases hnone
  · intro k hk
    obtain rfl : s = k := Option.some.inj (hloads.superclass.symm.trans hk)
    exact ⟨hext _ _ hbound, hfinal⟩
  · rw [hchain, List.getLast?_cons, hplace.chain]
    rfl
  · rw [hchain, List.map_cons, List.nodup_cons]
    exact ⟨hfresh, hplace.acyclic⟩
  · intro k hk
    obtain rfl : s = k := Option.some.inj (hloads.superclass.symm.trans hk)
    exact hloads.layout
  · intro x hx
    rw [hchain, List.map_cons, List.mem_cons]
    rw [hloads.layout, List.mem_append] at hx
    rcases hx with hx | hx
    · exact .inr (hplace.owners x hx)
    · obtain ⟨y, -, rfl⟩ := List.mem_map.1 hx
      exact .inl rfl
  · rw [hloads.layout, List.map_append, List.map_map]
    refine List.nodup_append.2 ⟨hplace.slots, ?_, ?_⟩
    · have hnames := ClassFile.nodup_fieldNames hfields hloads.fields
      rw [List.nodup_iff_pairwise_ne, List.pairwise_map] at hnames ⊢
      exact hnames.imp fun hne heq => hne (congrArg Prod.snd heq)
    · rintro a ha b hb rfl
      obtain ⟨x, hx, hxa⟩ := List.mem_map.1 ha
      obtain ⟨y, -, hyb⟩ := List.mem_map.1 hb
      have howner : x.owner = c.name := congrArg Prod.fst (hxa.trans hyb.symm)
      exact hfresh (howner ▸ hplace.owners x hx)
  · intro _
    exact ⟨henclosing, by rw [henclosing, Name.dollar_mem_text_iff]⟩

theorem kept_wellFormed : Kept WellFormed := by
  intro l name f c h hlink
  obtain ⟨hplace, htext⟩ := h.inPlace_of_link hlink
  have hext : l.Extends ⟨l.classes.insert name c⟩ := extends_insert (link_eq_ok hlink).2.2.1
  refine ⟨fun k hk => hext _ _ (h.hosts k hk), fun n k hk => ?_, fun n k hk => ?_⟩
  · rw [resolve?_insert] at hk
    split at hk
    · rename_i heq
      cases hk
      rw [htext, heq]
    · exact h.named n k hk
  · rw [resolve?_insert] at hk
    split at hk
    · cases hk
      exact hplace
    · exact (h.inPlace n k hk).mono hext

/-! ## Growth by definitions -/

/-- The second loader comes from the first by definitions, whether these succeed or fail. -/
inductive Grows (l : Loader) : Loader → Prop
  | refl : Grows l l
  | define {k : Loader} (name : String) (bytes : Bytes) : Grows l k → Grows l (k.define name bytes).2
  | defineAll {k : Loader} (artifacts : List Artifact) : Grows l k → Grows l (k.defineAll artifacts).2

namespace Grows

variable {l k : Loader}

/-- What every definition keeps, growth keeps. -/
theorem kept {P : Loader → Prop} (h : l.Grows k) (hP : Kept P) (hl : P l) : P k := by
  induction h with
  | refl => exact hl
  | define name bytes _ ih => exact hP.define ih name bytes
  | defineAll artifacts _ ih => exact hP.defineAll ih artifacts

/-- No definition binds a name anew. -/
theorem extended (h : l.Grows k) : l.Extends k := h.kept (kept_extends l) fun _ _ hc => hc

theorem trans {j : Loader} (h : l.Grows k) (hj : k.Grows j) : l.Grows j := by
  induction hj with
  | refl => exact h
  | define name bytes _ ih => exact ih.define name bytes
  | defineAll artifacts _ ih => exact ih.defineAll artifacts

theorem reachable (h : l.Grows k) (hl : l.Reachable) : k.Reachable := by
  induction h with
  | refl => exact hl
  | define name bytes _ ih => exact ih.define name bytes
  | defineAll artifacts _ ih => exact ih.defineAll artifacts

end Grows

theorem Reachable.wellFormed {l : Loader} (h : l.Reachable) : l.WellFormed := by
  induction h with
  | boot => exact wellFormed_boot
  | define name bytes _ ih => exact kept_wellFormed.define ih name bytes
  | defineAll artifacts _ ih => exact kept_wellFormed.defineAll ih artifacts

/-! ## Slots -/

/-- A field has the same slot in the class as in all of its superclasses. -/
theorem WellFormed.slot?_of_mem_chain {l : Loader} (h : l.WellFormed) {c k : LoadedClass} (hk : k ∈ c.chain)
    (hc : l.resolve? c.name.text = some c) {owner name : String} {i : Nat} (hi : k.slot? owner name = some i) :
    c.slot? owner name = some i := by
  match c with
  | ⟨_, _, none, _, _, _, _, _, _, _⟩ =>
    rw [LoadedClass.chain, List.mem_singleton] at hk
    rw [← hk]
    exact hi
  | ⟨_, _, some s, _, _, _, _, _, _, _⟩ =>
    rw [LoadedClass.chain] at hk
    rcases List.mem_cons.1 hk with rfl | hk
    · exact hi
    · have hplace := h.inPlace _ _ hc
      have hs := h.slot?_of_mem_chain hk (hplace.superclass s rfl).1 hi
      rw [LoadedClass.slot?, hplace.layout s rfl, List.findIdx?_append]
      rw [LoadedClass.slot?] at hs
      rw [hs]
      rfl

/-- Every slot is the one of its field. -/
theorem InPlace.slot?_eq {l : Loader} {c : LoadedClass} (h : l.InPlace c) {i : Nat} {x : FieldSlot}
    (hx : c.layout[i]? = some x) : c.slot? x.owner.text x.name = some i := by
  obtain ⟨hlt, rfl⟩ := List.getElem?_eq_some_iff.1 hx
  have hdistinct := h.slots
  rw [List.nodup_iff_pairwise_ne, List.pairwise_map, List.pairwise_iff_getElem] at hdistinct
  refine List.findIdx?_eq_some_iff_getElem.2 ⟨hlt, by simp, fun j hj hsame => ?_⟩
  simp only [Bool.and_eq_true, decide_eq_true_eq, Name.text_inj] at hsame
  exact hdistinct j i (by omega) hlt hj (Prod.ext hsame.2 hsame.1)

end Loader

end ClassTree
