import ClassTree.Proofs.ClassFile.RoundTrip
import ClassTree.Proofs.Loader.Namespace
import ClassTree.Proofs.Loader.Order

/-!
# Batches of classes

The classes of a batch are defined one after the other in an order of `Loader.dependencies`, which puts a class after its
superclass and after the class that it is nested in. Only the superclass has to be defined before. No result depends on
the topological sort that finds the order.

* `Loader.Definable.defineEach_iff`: one after the other all are defined iff none comes before its superclass.
* `Loader.Fits.defineAllBy_iff`: so a batch is defined iff superclasses and enclosing classes together make no cycle, or the
  batch was given with every class after its superclass.
-/

namespace ClassTree

open Relation

/-! ## Accepted class files -/

theorem exists_mapM {α β : Type} {f : α → Option β} {xs : List α} (h : ∀ x ∈ xs, ∃ y, f x = some y) :
    ∃ ys, xs.mapM f = some ys := by
  induction xs with
  | nil => exact ⟨[], rfl⟩
  | cons x xs ih =>
    obtain ⟨y, hy⟩ := h x List.mem_cons_self
    obtain ⟨ys, hys⟩ := ih fun z hz => h z (List.mem_cons_of_mem _ hz)
    exact ⟨y :: ys, by simp [List.mapM_cons, hy, hys]⟩

namespace ClassFile

theorem FieldAccepted.exists_load? {f : ClassFile} {i : FieldInfo} {name : String} (h : f.FieldAccepted i name) :
    ∃ x, f.loadField? i = some x := by
  obtain ⟨t, ht⟩ := h.ty
  obtain ⟨d, hd, ht⟩ := Option.bind_eq_some_iff.1 ht
  have hty : ∃ t, Ty.ofDescriptor? d = some t := by
    unfold Ty.ofFieldDescriptor? at ht
    split at ht
    · rename_i t' ht'
      exact ⟨t', ht'⟩
    · cases ht
  obtain ⟨t', ht'⟩ := hty
  exact ⟨_, by simp [loadField?, memberName?_eq_some h.name, hd, ht']; rfl⟩

theorem MethodAccepted.exists_load? {f : ClassFile} {m : MethodInfo} {key : String × String}
    (h : f.MethodAccepted m key) : ∃ l, f.loadMethod? m = some l := by
  obtain ⟨sig, hsig, -⟩ := h.sig
  exact ⟨_, by simp [loadMethod?, memberName?_eq_some h.name, h.descriptor, hsig]; rfl⟩

/-- A class file that is accepted gives a class below any superclass, with its own flags. -/
theorem exists_load? {f : ClassFile} (hv : f.verify = .ok ()) (s : LoadedClass) :
    ∃ c, f.load? s = some c ∧ c.access = f.access := by
  simp only [verify, verifyHeader, bind_eq_ok, orFail_eq_ok, require_eq_ok, pure_eq_ok] at hv
  obtain ⟨-, -, name, ⟨text, htext, name', hparse, -, hknown, -, -, superName, -, -, -, rfl⟩, _, hinner, _, hfields,
    hmethods⟩ := hv
  obtain ⟨inners, hinners, -⟩ := verifyInner_eq_ok hinner
  obtain ⟨names, hnames, -⟩ := verifyFields_eq_ok.1 hfields
  obtain ⟨keys, hkeys, -⟩ := verifyMethods_eq_ok.1 hmethods
  have hnesting : ∀ i ∈ f.inner, ∃ r, f.nestingNames? i = some r ∧ ∃ n, Name.parse? r.1 = some n := by
    intro i hi
    obtain ⟨inner, -, haccepted⟩ := exists_right hinners hi
    obtain ⟨outer, n, houter, hn, -⟩ := haccepted.outer
    exact ⟨(inner, outer), by simp [nestingNames?, haccepted.names, houter], n, hn⟩
  obtain ⟨relations, hrelations⟩ := exists_mapM fun i hi => (hnesting i hi).imp fun _ h => h.1
  obtain ⟨nested, hnested⟩ : ∃ ns, f.nested? relations = some ns := by
    refine exists_mapM fun r hr => ?_
    obtain ⟨i, hi, hir⟩ := exists_left (mapM_eq_some.1 hrelations) (List.mem_of_mem_filter hr)
    obtain ⟨r', hr', hn⟩ := hnesting i hi
    obtain rfl : r' = r := Option.some.inj (hr'.symm.trans hir)
    exact hn
  obtain ⟨fields, hfields⟩ := exists_mapM (f := f.loadField?) fun i hi => by
    obtain ⟨name, -, haccepted⟩ := exists_right hnames hi
    exact haccepted.exists_load?
  obtain ⟨methods, hmethods⟩ := exists_mapM (f := f.loadMethod?) fun m hm => by
    obtain ⟨key, -, haccepted⟩ := exists_right hkeys hm
    exact haccepted.exists_load?
  have htrunc := Modifiers.truncate_of_isKnown hknown
  simp only [load?, htext, hparse, hrelations, hnested, hfields, hmethods, Option.bind_eq_bind, Option.bind_some,
    Option.pure_def, Option.some.injEq]
  exact ⟨_, rfl, htrunc⟩

/-- An accepted class does not extend itself. -/
theorem superName?_ne {f : ClassFile} {name : String} (hv : f.verify = .ok ()) (hname : f.name? = some name) :
    f.superName? ≠ some name := by
  simp only [verify, verifyHeader, bind_eq_ok, orFail_eq_ok, require_eq_ok, pure_eq_ok] at hv
  obtain ⟨-, -, _, ⟨text, htext, n, hparse, -, -, -, -, superName, hsuper, -, hne, -⟩, -⟩ := hv
  obtain rfl : name = text := Option.some.inj (hname.symm.trans htext)
  rw [hsuper, ← Name.text_of_parse? hparse]
  simpa using hne

/-- The prerequisites of an accepted class are its superclass and the class that its name is nested in. -/
theorem mem_prerequisites {f : ClassFile} {name : Name} (hv : f.verify = .ok ()) (hname : f.name? = some name.text)
    {dep : String} :
    dep ∈ Loader.prerequisites name.text f ↔ f.superName? = some dep ∨ name.enclosing.map Name.text = some dep := by
  obtain ⟨n, hn, hinner, -⟩ := verify_eq_ok hv
  rw [hname, Option.bind_some, Name.parse?_text, Option.some.injEq] at hn
  subst hn
  obtain ⟨inners, hinners, hown⟩ := verifyInner_eq_ok hinner
  rw [Loader.prerequisites, List.mem_append, Option.mem_toList, List.mem_filterMap]
  refine or_congr Iff.rfl ⟨?_, fun henclosing => ?_⟩
  · rintro ⟨i, hi, hdep⟩
    obtain ⟨inner, -, haccepted⟩ := exists_right hinners hi
    obtain ⟨outer, innerName, houter, hparse, hencl, -⟩ := haccepted.outer
    split at hdep
    · rename_i hthis
      rw [haccepted.names, Option.some.injEq] at hthis
      rw [hthis, Name.parse?_text, Option.some.injEq] at hparse
      rw [houter] at hdep
      rw [hparse, hencl, hdep]
    · cases hdep
  · have hnested : name.isNested = true := by
      obtain ⟨e, he, -⟩ := Option.map_eq_some_iff.1 henclosing
      have hpath := (Name.isSome_enclosing name).1 (by rw [he]; rfl)
      rw [← List.length_pos_iff, List.length_dropLast] at hpath
      simp only [Name.isNested, decide_eq_true_eq]
      omega
    obtain ⟨i, hi, haccepted⟩ := exists_left hinners (hown hnested)
    obtain ⟨outer, innerName, houter, hparse, hencl, -⟩ := haccepted.outer
    rw [Name.parse?_text, Option.some.injEq] at hparse
    rw [← hparse, henclosing, Option.some.injEq] at hencl
    exact ⟨i, hi, by rw [if_pos haccepted.names, houter, hencl]⟩

end ClassFile

/-! ## One class after the other -/

namespace Loader

/-- Classes that are new, accepted under their own names, and each of which has a superclass that may be extended among
them or among the classes that are defined. -/
structure Definable (l : Loader) (items : List (String × ClassFile)) : Prop where
  distinct : (items.map Prod.fst).Nodup
  fresh : ∀ x ∈ items, l.contains x.1 = false
  verified : ∀ x ∈ items, x.2.verify = .ok ()
  named : ∀ x ∈ items, x.2.name? = some x.1
  superclass : ∀ x ∈ items, ∃ name, x.2.superName? = some name ∧
    ((∃ s, l.resolve? name = some s ∧ s.access.isFinal = false) ∨ ∃ y ∈ items, y.1 = name ∧ y.2.access.isFinal = false)

/-- No class comes before its superclass. -/
def SuperclassesFirst (items : List (String × ClassFile)) : Prop :=
  items.Pairwise fun x y => x.2.superName? ≠ some y.1

theorem Definable.perm {l : Loader} {items items' : List (String × ClassFile)} (h : l.Definable items)
    (hperm : items'.Perm items) : l.Definable items' where
  distinct := (hperm.map Prod.fst).nodup_iff.2 h.distinct
  fresh x hx := h.fresh x (hperm.mem_iff.1 hx)
  verified x hx := h.verified x (hperm.mem_iff.1 hx)
  named x hx := h.named x (hperm.mem_iff.1 hx)
  superclass x hx := by
    obtain ⟨name, hname, hs⟩ := h.superclass x (hperm.mem_iff.1 hx)
    exact ⟨name, hname, hs.imp_right fun ⟨y, hy, heq⟩ => ⟨y, hperm.mem_iff.2 hy, heq⟩⟩

/-- The first class is linked if its superclass is not to come, and then the others are still definable. -/
theorem Definable.link {l : Loader} {x : String × ClassFile} {items : List (String × ClassFile)}
    (h : l.Definable (x :: items)) (hsuper : ∀ y ∈ items, x.2.superName? ≠ some y.1) :
    ∃ c, l.link x.1 x.2 = .ok c ∧ Definable ⟨l.classes.insert x.1 c⟩ items := by
  have hverified := h.verified x List.mem_cons_self
  have hnew := h.fresh x List.mem_cons_self
  have hnames := h.distinct
  rw [List.map_cons, List.nodup_cons] at hnames
  obtain ⟨name, hname, hs⟩ := h.superclass x List.mem_cons_self
  have hbound : ∃ s, l.resolve? name = some s ∧ s.access.isFinal = false := by
    refine hs.resolve_right ?_
    rintro ⟨y, hy, rfl, -⟩
    rcases List.mem_cons.1 hy with rfl | hy
    · exact ClassFile.superName?_ne hverified (h.named y List.mem_cons_self) hname
    · exact hsuper y hy hname
  obtain ⟨s, hresolve, hfinal⟩ := hbound
  obtain ⟨c, hc, haccess⟩ := ClassFile.exists_load? hverified s
  refine ⟨c, link_of hverified (h.named x List.mem_cons_self) hnew hname hresolve hfinal hc, hnames.2, fun y hy => ?_,
    fun y hy => h.verified y (List.mem_cons_of_mem _ hy), fun y hy => h.named y (List.mem_cons_of_mem _ hy),
    fun y hy => ?_⟩
  · have hne : x.1 ≠ y.1 := fun heq => hnames.1 (heq ▸ List.mem_map_of_mem hy)
    rw [contains, resolve?_insert, if_neg hne]
    exact h.fresh y (List.mem_cons_of_mem _ hy)
  · obtain ⟨n, hn, hs⟩ := h.superclass y (List.mem_cons_of_mem _ hy)
    refine ⟨n, hn, ?_⟩
    rcases hs with ⟨s', hs', hfinal'⟩ | ⟨z, hz, rfl, hfinal'⟩
    · exact .inl ⟨s', extends_insert hnew n s' hs', hfinal'⟩
    · rcases List.mem_cons.1 hz with rfl | hz
      · exact .inl ⟨c, by rw [resolve?_insert, if_pos rfl], by rw [haccess]; exact hfinal'⟩
      · exact .inr ⟨z, hz, rfl, hfinal'⟩

/-- One after the other all are defined iff none comes before its superclass. -/
theorem Definable.defineEach_iff {l : Loader} {items : List (String × ClassFile)} (h : l.Definable items)
    (done : List LoadedClass) : (∃ cs, (l.defineEach done items).1 = .ok cs) ↔ SuperclassesFirst items := by
  induction items generalizing l done with
  | nil => simp [defineEach, SuperclassesFirst]
  | cons x items ih =>
    rw [SuperclassesFirst, List.pairwise_cons, defineEach, defineFile]
    by_cases hsuper : ∀ y ∈ items, x.2.superName? ≠ some y.1
    · obtain ⟨c, hlink, hrest⟩ := h.link hsuper
      rw [hlink]
      exact (ih hrest (c :: done)).trans (iff_and_self.2 fun _ => hsuper)
    · -- The superclass is still to come, so it is not defined.
      refine iff_of_false ?_ fun hall => hsuper hall.1
      obtain ⟨y, hy, heq⟩ : ∃ y ∈ items, x.2.superName? = some y.1 := by simpa using hsuper
      have hfails : ∀ c, l.link x.1 x.2 ≠ .ok c := by
        intro c hc
        obtain ⟨-, -, -, name, s, hname, hs, -⟩ := link_eq_ok hc
        obtain rfl : y.1 = name := Option.some.inj (heq.symm.trans hname)
        have := h.fresh y (List.mem_cons_of_mem _ hy)
        simp [contains, hs] at this
      rcases hlink : l.link x.1 x.2 with e | c
      · rintro ⟨cs, hcs⟩
        cases hcs
      · exact absurd hlink (hfails c)

theorem contains_of_defineEach {l : Loader} {done cs : List LoadedClass} {items : List (String × ClassFile)}
    (h : (l.defineEach done items).1 = .ok cs) {x : String × ClassFile} (hx : x ∈ items) :
    (l.defineEach done items).2.contains x.1 = true := by
  induction items generalizing l done with
  | nil => cases hx
  | cons y items ih =>
    rw [defineEach, defineFile] at h ⊢
    rcases hlink : l.link y.1 y.2 with e | c
    · rw [hlink] at h
      cases h
    · rw [hlink] at h
      rcases List.mem_cons.1 hx with rfl | hx
      · have hkept := (kept_extends ⟨l.classes.insert x.1 c⟩).defineEach (fun _ _ h => h) (c :: done) items
        rw [contains]
        rw [hkept x.1 c (by rw [resolve?_insert, if_pos rfl])]
        rfl
      · exact ih h hx

/-! ## The order of a batch -/

/-- Where a name stands in a batch. -/
theorem getElem?_index {items : List ((String × ClassFile) × Nat)} (hnodup : (items.map (·.1.1)).Nodup)
    {m : Std.HashMap String Nat} {name : String} {j : Nat} :
    (items.foldl (fun m ((n, _), i) => m.insert n i) m)[name]? = some j ↔
      (∃ f, ((name, f), j) ∈ items) ∨ name ∉ items.map (·.1.1) ∧ m[name]? = some j := by
  induction items generalizing m with
  | nil => simp
  | cons x items ih =>
    obtain ⟨⟨n, f⟩, i⟩ := x
    rw [List.map_cons, List.nodup_cons] at hnodup
    rw [List.foldl_cons, ih hnodup.2, Std.HashMap.getElem?_insert]
    by_cases hn : n = name
    · subst hn
      have hnot : ∀ f', ((n, f'), j) ∉ items := fun f' hmem => hnodup.1 (List.mem_map.2 ⟨_, hmem, rfl⟩)
      simp only [hnot, exists_false, false_or, hnodup.1, not_false_iff, true_and, beq_self_eq_true, if_true,
        Option.some.injEq, List.mem_cons, Prod.mk.injEq, or_false, List.map_cons, not_true_eq_false, false_and]
      exact ⟨fun h => ⟨f, rfl, h.symm⟩, fun ⟨_, _, h⟩ => h.symm⟩
    · have hbeq : (n == name) = false := by simpa using hn
      simp [hbeq, Ne.symm hn]

/-- A class of a batch needs another iff that one is among its prerequisites. -/
theorem edge_dependencies {batch : List (String × ClassFile)} (hnodup : (batch.map Prod.fst).Nodup) {i j : Nat} :
    (dependencies batch.toArray).Edge j i ↔
      j ≠ i ∧ ∃ x y, batch[i]? = some x ∧ batch[j]? = some y ∧ y.1 ∈ prerequisites x.1 x.2 := by
  have hfst : batch.zipIdx.map (·.1.1) = batch.map Prod.fst := by
    rw [← List.zipIdx_map_fst 0 batch, List.map_map, List.zipIdx_map_fst]
    rfl
  have hindex := fun dep k => @getElem?_index batch.zipIdx (hfst ▸ hnodup) ∅ dep k
  simp only [Std.HashMap.getElem?_empty, reduceCtorEq, and_false, or_false, List.mem_zipIdx_iff_getElem?] at hindex
  simp only [Dependencies.Edge, dependencies, List.mem_flatMap, List.mem_filterMap, Prod.exists,
    List.mem_zipIdx_iff_getElem?]
  constructor
  · rintro ⟨name, f, k, hk, dep, hdep, hedge⟩
    split at hedge
    · rename_i k' hk'
      split at hedge
      · cases hedge
      · rename_i hne
        cases hedge
        obtain ⟨g, hg⟩ := (hindex _ _).1 hk'
        exact ⟨hne, _, _, _, _, hk, hg, hdep⟩
    · cases hedge
  · rintro ⟨hne, name, f, dep, g, hi, hj, hdep⟩
    refine ⟨name, f, i, hi, dep, hdep, ?_⟩
    rw [(hindex dep j).2 ⟨g, hj⟩]
    simp [hne]

theorem inRange_dependencies {batch : List (String × ClassFile)} (hnodup : (batch.map Prod.fst).Nodup) :
    (dependencies batch.toArray).InRange := by
  intro j i hedge
  obtain ⟨-, x, y, hx, hy, -⟩ := (edge_dependencies hnodup).1 hedge
  exact ⟨(List.getElem?_eq_some_iff.1 hy).1, (List.getElem?_eq_some_iff.1 hx).1⟩

/-- The classes of a batch in an order of their numbers. -/
def arranged (batch : List (String × ClassFile)) (order : List Nat) : List (String × ClassFile) :=
  order.filterMap (batch.toArray[·]?)

theorem arranged_range (batch : List (String × ClassFile)) : arranged batch (List.range batch.length) = batch := by
  induction batch with
  | nil => rfl
  | cons x batch ih =>
    rw [arranged, List.length_cons, List.range_succ_eq_map, List.filterMap_cons_some (by simp; rfl), List.filterMap_map]
    exact congrArg _ (Eq.trans (by simp [arranged]) ih)

/-- The classes of a batch as a sort orders their numbers, or as they were given. -/
def sortedBy (sort : Dependencies → Option (List Nat)) (batch : List (String × ClassFile)) : List (String × ClassFile) :=
  arranged batch ((sort (dependencies batch.toArray)).getD (List.range batch.length))

section Sorted

variable {sort : Dependencies → Option (List Nat)} (hsort : Dependencies.Toposort sort)
include hsort

/-- Sorting a batch leaves out no class, and none comes twice. -/
theorem perm_sortedBy {batch : List (String × ClassFile)} (hnodup : (batch.map Prod.fst).Nodup) :
    (sortedBy sort batch).Perm batch := by
  unfold sortedBy
  cases horder : sort (dependencies batch.toArray) with
  | none => exact .of_eq (arranged_range batch)
  | some order =>
    have hperm : order.Perm (List.range batch.length) := hsort.perm _ order (inRange_dependencies hnodup) horder
    exact (hperm.filterMap (batch.toArray[·]?)).trans (.of_eq (arranged_range batch))

/-- In the order of a batch no class comes before its superclass, unless it cannot be helped: with a cycle the classes
come as they were given. -/
theorem superclassesFirst_sortedBy {batch : List (String × ClassFile)} (hnodup : (batch.map Prod.fst).Nodup) :
    SuperclassesFirst (sortedBy sort batch) ↔ (dependencies batch.toArray).Acyclic ∨ SuperclassesFirst batch := by
  have hrange := inRange_dependencies hnodup
  rw [← hsort.isSome_iff _ hrange, sortedBy]
  cases horder : sort (dependencies batch.toArray) with
  | none => simp [arranged_range]
  | some order =>
    refine iff_of_true ?_ (.inl rfl)
    have hperm := hsort.perm _ order hrange horder
    have hsorted : order.Pairwise fun i j => order.idxOf i < order.idxOf j := by
      have hnodup : order.Nodup := hperm.nodup_iff.2 List.nodup_range
      refine List.pairwise_iff_getElem.2 fun i j hi hj hij => ?_
      rwa [hnodup.idxOf_getElem, hnodup.idxOf_getElem]
    refine List.pairwise_filterMap.2 (hsorted.imp fun {i j} hij x hx y hy hsuper => ?_)
    rw [List.getElem?_toArray] at hx hy
    have hne : j ≠ i := by
      rintro rfl
      exact Nat.lt_irrefl _ hij
    have hedge : (dependencies batch.toArray).Edge j i :=
      (edge_dependencies hnodup).2 ⟨hne, x, y, hx, hy, List.mem_append_left _ (Option.mem_toList.2 hsuper)⟩
    exact Nat.lt_asymm hij (hsort.before _ order hrange horder j i hedge)

end Sorted

end Loader

/-! ## Batches of artifacts -/

namespace Artifact

/-- The bytes are read and verified as a class of the artifact's name. -/
structure Accepted (a : Artifact) (f : ClassFile) : Prop where
  decoded : ClassFile.decode a.bytes = .ok f
  verified : f.verify = .ok ()
  named : f.name? = some a.name.text

/-- The class of an artifact extends that of the other. -/
def Extends (a b : Artifact) : Prop := ∃ f, ClassFile.decode a.bytes = .ok f ∧ f.superName? = some b.name.text

/-- The class of an artifact extends that of the other or is nested in it. -/
def Follows (a b : Artifact) : Prop := a.Extends b ∨ a.name.enclosing = some b.name

/-- A relation does not lead from an artifact of the batch back to it. -/
def Acyclic (batch : List Artifact) (R : Artifact → Artifact → Prop) : Prop :=
  ∀ a, ¬ TransGen (fun a b => a ∈ batch ∧ b ∈ batch ∧ R a b) a a

end Artifact

namespace Loader

/-- A batch of new classes under names that differ, each of them accepted and with a superclass that is not final and is
defined or in the batch. -/
structure Fits (l : Loader) (batch : List Artifact) : Prop where
  distinct : (batch.map Artifact.name).Nodup
  fresh : ∀ a ∈ batch, l.contains a.name.text = false
  accepted : ∀ a ∈ batch, ∃ f, a.Accepted f
  superclass : ∀ a ∈ batch, ∀ f, a.Accepted f → ∃ name, f.superName? = some name ∧
    ((∃ s, l.resolve? name = some s ∧ s.access.isFinal = false) ∨
      ∃ b ∈ batch, ∃ g, b.Accepted g ∧ b.name.text = name ∧ g.access.isFinal = false)

/-- A new class below the root class fits beside the classes of a loader. -/
theorem fits_singleton {l : Loader} (hl : l.WellFormed) {a : Artifact} {f : ClassFile} (ha : a.Accepted f)
    (hnew : l.contains a.name.text = false) (hsuper : f.superName? = some LoadedClass.object.name.text) : l.Fits [a] where
  distinct := List.nodup_singleton _
  fresh := List.forall_mem_singleton.2 hnew
  accepted := List.forall_mem_singleton.2 ⟨f, ha⟩
  superclass := by
    refine List.forall_mem_singleton.2 fun g hg => ?_
    obtain rfl : f = g := Except.ok.inj (ha.decoded.symm.trans hg.decoded)
    exact ⟨_, hsuper, .inl ⟨.object, hl.hosts .object (by simp [LoadedClass.hosts]), rfl⟩⟩

/-- The class files of a batch under the names of their artifacts. -/
def filesOf (file : Artifact → ClassFile) (batch : List Artifact) : List (String × ClassFile) :=
  batch.map fun a => (a.name.text, file a)

theorem Fits.exists_file {l : Loader} {batch : List Artifact} (h : l.Fits batch) :
    ∃ file : Artifact → ClassFile, ∀ a ∈ batch, a.Accepted (file a) := by
  have : Nonempty ClassFile := ⟨1, 0, #[], ⟨0⟩, 0, 0, [], [], []⟩
  choose! file hfile using h.accepted
  exact ⟨file, hfile⟩

section Files

variable {l : Loader} {batch : List Artifact} {file : Artifact → ClassFile} (hfile : ∀ a ∈ batch, a.Accepted (file a))
include hfile

theorem Fits.definable (h : l.Fits batch) : l.Definable (filesOf file batch) := by
  have hmem : ∀ x ∈ filesOf file batch, ∃ a ∈ batch, x = (a.name.text, file a) := by
    intro x hx
    obtain ⟨a, ha, rfl⟩ := List.mem_map.1 hx
    exact ⟨a, ha, rfl⟩
  refine ⟨?_, fun x hx => ?_, fun x hx => ?_, fun x hx => ?_, fun x hx => ?_⟩
  · rw [filesOf, List.map_map]
    have hinj := h.distinct.map (f := Name.text) fun _ _ => Name.text_inj.1
    rwa [List.map_map] at hinj
  all_goals obtain ⟨a, ha, rfl⟩ := hmem x hx
  · exact h.fresh a ha
  · exact (hfile a ha).verified
  · exact (hfile a ha).named
  · obtain ⟨name, hname, hs⟩ := h.superclass a ha _ (hfile a ha)
    refine ⟨name, hname, hs.imp_right ?_⟩
    rintro ⟨b, hb, g, hg, rfl, hfinal⟩
    obtain rfl : file b = g := Except.ok.inj ((hfile b hb).decoded.symm.trans hg.decoded)
    exact ⟨_, List.mem_map_of_mem hb, rfl, hfinal⟩

theorem extends_iff {a b : Artifact} (ha : a ∈ batch) : a.Extends b ↔ (file a).superName? = some b.name.text := by
  constructor
  · rintro ⟨f, hf, hsuper⟩
    obtain rfl : file a = f := Except.ok.inj ((hfile a ha).decoded.symm.trans hf)
    exact hsuper
  · exact fun hsuper => ⟨_, (hfile a ha).decoded, hsuper⟩

theorem superclassesFirst_filesOf : SuperclassesFirst (filesOf file batch) ↔ batch.Pairwise fun a b => ¬ a.Extends b := by
  rw [SuperclassesFirst, filesOf, List.pairwise_map]
  exact ⟨fun h => h.imp_of_mem fun ha _ hne => mt (extends_iff hfile ha).1 hne,
    fun h => h.imp_of_mem fun ha _ hne => mt (extends_iff hfile ha).2 hne⟩

/-- What an accepted class follows are its prerequisites, and it is not among them. -/
theorem follows_iff {a b : Artifact} (ha : a ∈ batch) :
    a.Follows b ↔ b.name.text ∈ prerequisites a.name.text (file a) := by
  have haccepted := hfile a ha
  rw [ClassFile.mem_prerequisites haccepted.verified haccepted.named, Artifact.Follows, extends_iff hfile ha]
  refine or_congr Iff.rfl ⟨fun h => by rw [h]; rfl, fun h => ?_⟩
  obtain ⟨e, he, htext⟩ := Option.map_eq_some_iff.1 h
  rw [he, Name.text_inj.1 htext]

theorem not_follows_self {a : Artifact} (ha : a ∈ batch) : ¬ a.Follows a := by
  have haccepted := hfile a ha
  rintro (hself | hself)
  · exact ClassFile.superName?_ne haccepted.verified haccepted.named ((extends_iff hfile ha).1 hself)
  · exact Name.enclosing_ne_self a.name hself

/-- The dependencies of a batch are what its artifacts follow. -/
theorem Fits.edge_iff (h : l.Fits batch) {i j : Nat} :
    (dependencies (filesOf file batch).toArray).Edge j i ↔
      ∃ a b, batch[i]? = some a ∧ batch[j]? = some b ∧ a.Follows b := by
  rw [edge_dependencies (h.definable hfile).distinct]
  simp only [filesOf, List.getElem?_map, Option.map_eq_some_iff]
  constructor
  · rintro ⟨-, _, _, ⟨a, ha, rfl⟩, ⟨b, hb, rfl⟩, hdep⟩
    exact ⟨a, b, ha, hb, (follows_iff hfile (List.mem_of_getElem? ha)).2 hdep⟩
  · rintro ⟨a, b, ha, hb, hfollows⟩
    refine ⟨?_, _, _, ⟨a, ha, rfl⟩, ⟨b, hb, rfl⟩, (follows_iff hfile (List.mem_of_getElem? ha)).1 hfollows⟩
    rintro rfl
    obtain rfl : a = b := Option.some.inj (ha.symm.trans hb)
    exact not_follows_self hfile (List.mem_of_getElem? ha) hfollows

theorem Fits.acyclic_iff (h : l.Fits batch) :
    (dependencies (filesOf file batch).toArray).Acyclic ↔ Artifact.Acyclic batch Artifact.Follows := by
  constructor
  · -- A cycle of artifacts is a cycle of their places.
    intro hacyclic a hcycle
    refine hacyclic (batch.idxOf a) (transGen_swap.1 (hcycle.lift batch.idxOf fun x y hxy => ?_))
    obtain ⟨hx, hy, hfollows⟩ := hxy
    exact (h.edge_iff hfile).2 ⟨x, y, List.getElem?_idxOf hx, List.getElem?_idxOf hy, hfollows⟩
  · intro hacyclic i hcycle
    have hpath : ∀ j, TransGen (dependencies (filesOf file batch).toArray).Edge i j →
        ∃ a b, batch[j]? = some a ∧ batch[i]? = some b ∧
          TransGen (fun a b => a ∈ batch ∧ b ∈ batch ∧ a.Follows b) a b := by
      intro j hij
      induction hij with
      | single hedge =>
        obtain ⟨a, b, ha, hb, hfollows⟩ := (h.edge_iff hfile).1 hedge
        exact ⟨a, b, ha, hb, .single ⟨List.mem_of_getElem? ha, List.mem_of_getElem? hb, hfollows⟩⟩
      | tail _ hedge ih =>
        obtain ⟨a, b, ha, hb, hab⟩ := ih
        obtain ⟨x, a', hx, ha', hfollows⟩ := (h.edge_iff hfile).1 hedge
        obtain rfl : a = a' := Option.some.inj (ha.symm.trans ha')
        exact ⟨x, b, hx, hb, .head ⟨List.mem_of_getElem? hx, List.mem_of_getElem? ha, hfollows⟩ hab⟩
    obtain ⟨a, b, ha, hb, hab⟩ := hpath i hcycle
    obtain rfl : a = b := Option.some.inj (ha.symm.trans hb)
    exact hacyclic a hab

theorem defineAllBy_eq (sort : Dependencies → Option (List Nat)) :
    l.defineAllBy sort batch = l.defineEach [] (sortedBy sort (filesOf file batch)) := by
  have hread : batch.mapM (fun a => do return (a.name.text, ← read a.name.text a.bytes)) =
      (.ok (filesOf file batch) : Except LoadError _) := by
    induction batch with
    | nil => rfl
    | cons a batch ih =>
      rw [List.mapM_cons, read, (hfile a List.mem_cons_self).decoded]
      simp only [bind, Except.bind, pure, Except.pure] at ih ⊢
      rw [ih fun b hb => hfile b (List.mem_cons_of_mem _ hb)]
      rfl
  rw [defineAllBy, hread]
  rfl

end Files

section Sorted

variable {sort : Dependencies → Option (List Nat)} (hsort : Dependencies.Toposort sort) {l : Loader} {batch : List Artifact}
include hsort

theorem Fits.exists_defineAllBy_iff (h : l.Fits batch) :
    (∃ cs, (l.defineAllBy sort batch).1 = .ok cs) ↔
      Artifact.Acyclic batch Artifact.Follows ∨ batch.Pairwise fun a b => ¬ a.Extends b := by
  obtain ⟨file, hfile⟩ := h.exists_file
  have hdefinable := h.definable hfile
  have hdefined := (hdefinable.perm (perm_sortedBy hsort hdefinable.distinct)).defineEach_iff []
  rwa [superclassesFirst_sortedBy hsort hdefinable.distinct, h.acyclic_iff hfile, superclassesFirst_filesOf hfile,
    ← defineAllBy_eq hfile] at hdefined

/-- All classes of a batch that was defined are held. -/
theorem Fits.contains_of_defineAllBy (h : l.Fits batch) {cs : List LoadedClass}
    (hcs : (l.defineAllBy sort batch).1 = .ok cs) {a : Artifact} (ha : a ∈ batch) :
    (l.defineAllBy sort batch).2.contains a.name.text = true := by
  obtain ⟨file, hfile⟩ := h.exists_file
  have hperm := perm_sortedBy hsort (h.definable hfile).distinct
  rw [defineAllBy_eq hfile] at hcs ⊢
  exact contains_of_defineEach hcs (hperm.mem_iff.2 (List.mem_map_of_mem ha))

/-- **Batches.** By whatever topological sort, a batch is defined as a whole iff superclasses and enclosing classes make no
cycle in it, or it was given with every class after its superclass. So a batch in which superclasses make no cycle may
fail: enclosing classes, which need not be defined before, may close one. -/
theorem Fits.defineAllBy_iff (h : l.Fits batch) :
    ((∃ cs, (l.defineAllBy sort batch).1 = .ok cs) ∧
        ∀ a ∈ batch, (l.defineAllBy sort batch).2.contains a.name.text = true) ↔
      Artifact.Acyclic batch Artifact.Follows ∨ batch.Pairwise fun a b => ¬ a.Extends b := by
  rw [← h.exists_defineAllBy_iff hsort]
  refine and_iff_left_of_imp ?_
  rintro ⟨cs, hcs⟩ a ha
  exact h.contains_of_defineAllBy hsort hcs ha

end Sorted

end Loader

/-! ## A class that extends the class nested in it -/

namespace ExtendsNested

def outerName : Name := .ofPath ["A"] (Eq.refl true)
def nestedName : Name := .ofPath ["A", "B"] (Eq.refl true)

def outerFile : ClassFile where
  constants := #[.utf8 "A", .cls 1, .utf8 "A$B", .cls 3]
  access := .pub
  thisClass := 2
  superClass := 4
  inner := []
  fields := []
  methods := []

def nestedFile : ClassFile where
  constants := #[.utf8 "A", .cls 1, .utf8 "A$B", .cls 3, .utf8 "B", .utf8 "lang.Object", .cls 6]
  access := .pub
  thisClass := 4
  superClass := 7
  inner := [⟨4, 2, 5, .pub ||| .static⟩]
  fields := []
  methods := []

theorem parse_outer : Name.parse? "A" = some outerName := outerName.parse?_text

theorem parse_nested : Name.parse? "A$B" = some nestedName := nestedName.parse?_text

theorem parse_root : Name.parse? "lang.Object" = some .object := Name.object.parse?_text

theorem verify_outerFile : outerFile.verify = .ok () := by
  have hclasses : outerFile.constants.verify = .ok () := by
    simp only [Constants.verify, outerFile, Constants.verifyFrom, Constants.verifyAt, bind_eq_ok, orFail_eq_ok]
    exact ⟨(), trivial, (), ⟨_, rfl, _, parse_outer, rfl⟩, (), trivial, (), ⟨_, rfl, _, parse_nested, rfl⟩, trivial⟩
  simp only [ClassFile.verify, ClassFile.verifyHeader, bind_eq_ok, orFail_eq_ok, require_eq_ok, pure_eq_ok]
  exact ⟨(), hclasses, outerName, ⟨_, rfl, _, parse_outer, (), by decide, (), by decide, _, rfl, (), by decide, rfl⟩,
    (), rfl, (), rfl, rfl⟩

theorem verify_nestedFile : nestedFile.verify = .ok () := by
  have hclasses : nestedFile.constants.verify = .ok () := by
    simp only [Constants.verify, nestedFile, Constants.verifyFrom, Constants.verifyAt, bind_eq_ok, orFail_eq_ok]
    exact ⟨(), trivial, (), ⟨_, rfl, _, parse_outer, rfl⟩, (), trivial, (), ⟨_, rfl, _, parse_nested, rfl⟩, (), trivial,
      (), trivial, (), ⟨_, rfl, _, parse_root, rfl⟩, trivial⟩
  have hinfo : nestedFile.verifyInnerInfo nestedName ∅ ⟨4, 2, 5, .pub ||| .static⟩ = .ok "A$B" :=
    ClassFile.verifyInnerInfo_eq_ok.2
      ⟨⟨rfl, by decide, "A", nestedName, rfl, parse_nested, by decide, rfl, .inl rfl⟩, by simp⟩
  have hinner : nestedFile.verifyInner nestedName = .ok () := by
    simp only [ClassFile.verifyInner, bind_eq_ok, require_eq_ok]
    refine ⟨_, bind_eq_ok.2 ⟨_, hinfo, rfl⟩, ?_⟩
    simp [show nestedName.text = "A$B" from rfl]
  simp only [ClassFile.verify, ClassFile.verifyHeader, bind_eq_ok, orFail_eq_ok, require_eq_ok, pure_eq_ok]
  exact ⟨(), hclasses, nestedName, ⟨_, rfl, _, parse_nested, (), by decide, (), by decide, _, rfl, (), by decide, rfl⟩,
    (), hinner, (), rfl, rfl⟩

def bytes (f : ClassFile) : Bytes := f.encode.toOption.getD []

/-- The class that extends the one nested in it comes first. -/
def batch : List Artifact :=
  [⟨outerName, bytes outerFile⟩, ⟨nestedName, bytes nestedFile⟩]

theorem accepted_outer : Artifact.Accepted ⟨outerName, bytes outerFile⟩ outerFile where
  decoded := (Reads.classFile rfl (by decide) (by cbv)).decode
  verified := verify_outerFile
  named := rfl

theorem accepted_nested : Artifact.Accepted ⟨nestedName, bytes nestedFile⟩ nestedFile where
  decoded := (Reads.classFile rfl (by decide) (by cbv)).decode
  verified := verify_nestedFile
  named := rfl

theorem fits : Loader.boot.Fits batch := by
  have hmem : ∀ a ∈ batch, a = ⟨outerName, bytes outerFile⟩ ∨ a = ⟨nestedName, bytes nestedFile⟩ := by simp [batch]
  refine ⟨by decide, fun a ha => ?_, fun a ha => ?_, fun a ha f hf => ?_⟩ <;> rcases hmem a ha with rfl | rfl
  · exact Loader.contains_boot (by decide)
  · exact Loader.contains_boot (by decide)
  · exact ⟨_, accepted_outer⟩
  · exact ⟨_, accepted_nested⟩
  · obtain rfl : outerFile = f := Except.ok.inj (accepted_outer.decoded.symm.trans hf.decoded)
    exact ⟨"A$B", rfl, .inr ⟨_, by simp [batch], _, accepted_nested, rfl, by decide⟩⟩
  · obtain rfl : nestedFile = f := Except.ok.inj (accepted_nested.decoded.symm.trans hf.decoded)
    exact ⟨LoadedClass.object.name.text, rfl,
      .inl ⟨.object, Loader.resolve?_boot (by simp [LoadedClass.hosts]), by decide⟩⟩

theorem outer_extends : Artifact.Extends ⟨outerName, bytes outerFile⟩ ⟨nestedName, bytes nestedFile⟩ :=
  ⟨_, accepted_outer.decoded, rfl⟩

/-- Superclasses alone make no cycle: the nested class extends the root class. -/
theorem acyclic_extends : Artifact.Acyclic batch Artifact.Extends := by
  have hstep : ∀ a b, a ∈ batch ∧ b ∈ batch ∧ a.Extends b → a.name = outerName ∧ b.name = nestedName := by
    rintro a b ⟨ha, hb, f, hf, hsuper⟩
    simp only [batch, List.mem_cons, List.not_mem_nil, or_false] at ha hb
    rcases ha with rfl | rfl
    · obtain rfl : outerFile = f := Except.ok.inj (accepted_outer.decoded.symm.trans hf)
      rcases hb with rfl | rfl
      · exact absurd hsuper (by decide)
      · exact ⟨rfl, rfl⟩
    · obtain rfl : nestedFile = f := Except.ok.inj (accepted_nested.decoded.symm.trans hf)
      rcases hb with rfl | rfl <;> exact absurd hsuper (by decide)
  intro a hcycle
  obtain ⟨_, hfirst, -⟩ := Relation.TransGen.head'_iff.1 hcycle
  obtain ⟨_, -, hlast⟩ := Relation.TransGen.tail'_iff.1 hcycle
  have hname := (hstep _ _ hfirst).1.symm.trans (hstep _ _ hlast).2
  exact absurd hname (by decide)

theorem cyclic_follows : ¬ Artifact.Acyclic batch Artifact.Follows := fun hacyclic =>
  hacyclic _ (.tail (.single ⟨by simp [batch], by simp [batch], .inl outer_extends⟩)
    ⟨by simp [batch], by simp [batch], .inr (by decide)⟩)

end ExtendsNested

/-- A class that extends the class nested in it and is given first: the batch is not defined, although superclasses make
no cycle. -/
theorem Loader.Fits.defineAllBy_iff_extendsNested :
    Dependencies.Toposort Dependencies.sorted? ∧ Loader.boot.Fits ExtendsNested.batch ∧
      Artifact.Acyclic ExtendsNested.batch Artifact.Extends ∧
      ¬ ((∃ cs, (Loader.boot.defineAll ExtendsNested.batch).1 = .ok cs) ∧
        ∀ a ∈ ExtendsNested.batch, (Loader.boot.defineAll ExtendsNested.batch).2.contains a.name.text = true) := by
  refine ⟨Dependencies.toposort_sorted?, ExtendsNested.fits, ExtendsNested.acyclic_extends, fun hdefined => ?_⟩
  rcases (Loader.Fits.defineAllBy_iff Dependencies.toposort_sorted? ExtendsNested.fits).1 hdefined with hacyclic | hfirst
  · exact ExtendsNested.cyclic_follows hacyclic
  · rw [ExtendsNested.batch, List.pairwise_pair] at hfirst
    exact hfirst ExtendsNested.outer_extends

end ClassTree
