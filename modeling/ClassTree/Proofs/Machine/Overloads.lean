import Mathlib.Data.List.Forall2
import ClassTree.Machine.Convert
import ClassTree.Proofs.Loader.Described

/-!
# Overloads at compile time and at run time

A call by name is resolved twice by different means: the check weighs the types of the arguments against the entries of the
registry, the machine weighs the arguments themselves against loaded classes. If the registry describes the loader
(`Registry.Describes`), both come to the same:

* a class has the same superclasses in both (`Registry.Describes.forall₂_chain`), so an argument costs what its type costs
  (`Registry.Describes.argumentCost_eq`), and it can be converted iff it has a cost (`Heap.exists_coerce_iff`);
* the candidates are the same methods in the same order (`Registry.Describes.findMethods_denote`): the registry leaves out a
  method with the parameters of one further down, the machine one with its descriptor, and overriding keeps the result type;
* the machine takes the first of the cheapest candidates (`Heap.select?_denotes`), and that is the one that was found, if one
  was.

This is so for objects of the classes that the registry knows (`Heap.Known`). An object of another compilation's class in the
same loader has a cost at run time only (`Compilation.selects_unresolved`).
-/

namespace ClassTree

variable {r : Registry} {l : Loader}

/-! ## Superclasses -/

namespace Registry.Describes

/-- A class is as far from a superclass at run time as at compile time. -/
theorem distance?_eq (h : r.Describes l) {k : LoadedClass} (hk : l.resolve? k.name.text = some k)
    (hregistered : r.contains k.name = true) (n : Name) : r.distance? k.name n = k.distance? n := by
  have hchain := h.forall₂_chain h.entry hk hregistered
  rw [distance?, LoadedClass.distance?]
  generalize r.chain k.name = es at hchain ⊢
  generalize k.chain = ks at hchain ⊢
  induction hchain with
  | nil => rfl
  | cons hdescribes _ ih => rw [List.findIdx?_cons, List.findIdx?_cons, hdescribes.name, ih]

end Registry.Describes

/-! ## Costs -/

/-- The class of a value that is an object is held by the loader and registered. Of an object of another class nothing was known
when the types of arguments were weighed. -/
def Heap.Known (h : Heap) (r : Registry) (l : Loader) (v : Value) : Prop :=
  ∀ id, v = .object id → ∃ k, h.class? id = some k ∧ l.resolve? k.name.text = some k ∧ r.contains k.name = true

theorem LoadedClass.distance?_string (n : Name) :
    LoadedClass.string.distance? n = if n = .string then some 0 else if n = .object then some 1 else none := by
  have hchain : LoadedClass.string.chain = [.string, .object] := rfl
  rw [distance?, hchain, List.findIdx?_cons, List.findIdx?_cons, List.findIdx?_nil]
  by_cases hstring : n = .string
  · subst hstring
    rfl
  · by_cases hobject : n = .object
    · subst hobject
      rfl
    · have hstring' : decide (string.name = n) = false := decide_eq_false (Ne.symm hstring)
      have hobject' : decide (object.name = n) = false := decide_eq_false (Ne.symm hobject)
      rw [if_neg hstring, if_neg hobject, hstring', hobject']
      rfl

namespace Registry.Describes

/-- An instance costs as many steps as lead up to the class that is expected, none if it is its own. -/
theorem conversionCost_ref (hr : r.Describes l) {k : LoadedClass} (hk : l.resolve? k.name.text = some k)
    (hregistered : r.contains k.name = true) (n : Name) : r.conversionCost (.ref k.name) (.ref n) = k.distance? n := by
  unfold conversionCost
  rw [if_neg (show ¬ ((Ty.ref k.name).isVoid || (Ty.ref n).isVoid) = true by simp [Ty.isVoid])]
  split
  · rename_i hsame
    cases hsame
    rw [LoadedClass.distance?, LoadedClass.chain_eq, List.findIdx?_cons, decide_eq_true rfl]
    rfl
  · exact hr.distance?_eq hk hregistered n

/-- An argument costs at run time what its type costs at compile time. -/
theorem argumentCost_eq (hr : r.Describes l) {h : Heap} {v : Value} (hv : h.Known r l v) {t : Ty} (ht : t.IsValue) :
    h.argumentCost v t = r.conversionCost (h.typeOf v) t := by
  obtain ⟨hvoid, hnull⟩ := ht
  cases v with
  | object id =>
    obtain ⟨k, hclass, hk, hregistered⟩ := hv id rfl
    have htype : h.typeOf (.object id) = .ref k.name := by rw [Heap.typeOf, hclass]
    rw [htype]
    cases t with
    | ref n =>
      rw [hr.conversionCost_ref hk hregistered]
      change (h.class? id).bind (·.distance? n) = k.distance? n
      rw [hclass, Option.bind_some]
    | void | null => contradiction
    | _ => rfl
  | str s =>
    cases t with
    | ref n =>
      have hstring : l.resolve? LoadedClass.string.name.text = some .string :=
        hr.wellFormed.hosts _ (by simp [LoadedClass.hosts])
      have hregistered : r.contains LoadedClass.string.name = true :=
        contains_of_mem (hr.hosts Host.stringEntry (by simp [Host.classes]))
      refine Eq.trans ?_ (hr.conversionCost_ref hstring hregistered n).symm
      exact (LoadedClass.distance?_string n).symm
    | void | null => contradiction
    | _ => rfl
  | _ => cases t <;> first | rfl | contradiction

/-- Arguments cost at run time what their types cost at compile time. -/
theorem callCost_eq (hr : r.Describes l) {h : Heap} {args : List Value} (hargs : ∀ v ∈ args, h.Known r l v)
    {params : List Ty} (hparams : ∀ t ∈ params, t.IsValue) :
    h.callCost args params = r.callCost (args.map h.typeOf) params := by
  have hfold : ∀ (args : List Value) (params : List Ty) (total : UInt32), (∀ v ∈ args, h.Known r l v) →
      (∀ t ∈ params, t.IsValue) →
      (args.zip params).foldlM (fun total x => (h.argumentCost x.1 x.2).map (total + .ofNat ·)) total =
        ((args.map h.typeOf).zip params).foldlM (fun total x => (r.conversionCost x.1 x.2).map (total + .ofNat ·)) total := by
    intro args
    induction args with
    | nil => exact fun _ _ _ _ => rfl
    | cons v args ih =>
      intro params total hargs hparams
      cases params with
      | nil => rfl
      | cons t params =>
        rw [List.map_cons, List.zip_cons_cons, List.zip_cons_cons, List.foldlM_cons, List.foldlM_cons,
          hr.argumentCost_eq (hargs v List.mem_cons_self) (hparams t List.mem_cons_self)]
        refine bind_congr fun total => ?_
        exact ih params total (fun v hv => hargs v (List.mem_cons_of_mem _ hv)) fun t ht =>
          hparams t (List.mem_cons_of_mem _ ht)
  rw [Heap.callCost, callCost, List.length_map]
  split
  · exact hfold args params 0 hargs hparams
  · rfl

end Registry.Describes

/-- A value can be converted iff passing it has a cost. -/
theorem Heap.exists_coerce_iff {h : Heap} {v : Value} {t : Ty} (ht : t.IsValue) :
    (∃ v', h.coerce v t = .ok v') ↔ (h.argumentCost v t).isSome = true := by
  obtain ⟨hvoid, hnull⟩ := ht
  cases t with
  | void | null => contradiction
  | ref n =>
    have hcoerce : h.coerce v (.ref n) =
        if (h.referenceCost v (.ref n)).isSome then .ok v else .error (h.mismatch (Ty.ref n).text v) := by
      cases v <;> rfl
    have hcost : h.argumentCost v (.ref n) = h.referenceCost v (.ref n) := by cases v <;> rfl
    rw [hcoerce, hcost]
    cases h.referenceCost v (.ref n) <;> simp
  | _ =>
    cases v <;> first
      | exact iff_of_true ⟨_, rfl⟩ rfl
      | exact iff_of_false (fun ⟨_, hok⟩ => nomatch hok) Bool.false_ne_true

/-! ## Candidates -/

/-- An entry and a target are the same method of the same class. -/
structure MethodEntry.Denotes (m : MethodEntry) (t : Target) : Prop where
  owner : t.cls.name = m.owner
  method : m.Describes t.method

namespace MethodEntry

/-- Methods of the same parameters have the same result type. -/
def Coherent (ms : List MethodEntry) : Prop := ∀ a ∈ ms, ∀ b ∈ ms, a.params = b.params → a.ret = b.ret

theorem Coherent.mono {ms ms' : List MethodEntry} (h : Coherent ms') (hsub : ms ⊆ ms') : Coherent ms :=
  fun a ha b hb => h a (hsub ha) b (hsub hb)

/-- Where parameters tell the result type, methods have the same descriptor iff they have the same parameters. -/
theorem Describes.descriptor_eq_iff {a b : MethodEntry} {x y : LoadedMethod} (ha : a.Describes x) (hb : b.Describes y)
    (hret : a.params = b.params → a.ret = b.ret) : x.descriptor = y.descriptor ↔ a.params = b.params := by
  rw [ha.descriptor, hb.descriptor]
  refine ⟨fun heq => ?_, fun heq => ?_⟩
  · have hsame := ha.signature
    rw [heq, hb.signature, Option.some.injEq] at hsame
    exact (congrArg Signature.params hsame).symm
  · exact congrArg Signature.descriptor (congrArg₂ Signature.mk heq (hret heq))

/-- By parameters and by descriptors the same candidates are hidden, so what is left are the same methods. -/
theorem foldl_denote {ms found : List MethodEntry} {ts targets : List Target} (hms : List.Forall₂ Denotes ms ts)
    (hfound : List.Forall₂ Denotes found targets) (hcoherent : Coherent (found ++ ms)) :
    List.Forall₂ Denotes (ms.foldl Registry.addVisible found) (ts.foldl LoadedClass.addTarget targets) := by
  induction hms generalizing found targets with
  | nil => exact hfound
  | @cons m t ms ts hmt _ ih =>
    rw [List.foldl_cons, List.foldl_cons]
    have hhidden : found.any (·.params = m.params) = targets.any (·.method.descriptor = t.method.descriptor) := by
      rw [Bool.eq_iff_iff, List.any_eq_true, List.any_eq_true]
      simp only [decide_eq_true_eq]
      constructor
      · rintro ⟨a, ha, heq⟩
        obtain ⟨x, hx, hax⟩ := exists_right hfound ha
        exact ⟨x, hx, (hax.method.descriptor_eq_iff hmt.method
          (hcoherent a (List.mem_append_left _ ha) m (by simp))).2 heq⟩
      · rintro ⟨x, hx, heq⟩
        obtain ⟨a, ha, hax⟩ := exists_left hfound hx
        exact ⟨a, ha, (hax.method.descriptor_eq_iff hmt.method
          (hcoherent a (List.mem_append_left _ ha) m (by simp))).1 heq⟩
    rw [Registry.addVisible, LoadedClass.addTarget, hhidden]
    split
    · refine ih hfound (hcoherent.mono ?_)
      exact List.append_subset.2 ⟨List.subset_append_left _ _, fun x hx =>
        List.mem_append_right _ (List.mem_cons_of_mem _ hx)⟩
    · refine ih (List.rel_append hfound (.cons hmt .nil)) ?_
      rwa [List.append_assoc]

end MethodEntry

namespace Registry

/-- What is hidden has as many parameters as what hides it, so the methods with so many can be taken before or after. -/
theorem filter_length_foldl_addVisible (argc : Nat) (ms found : List MethodEntry) :
    (ms.foldl addVisible found).filter (·.params.length = argc) =
      (ms.filter (·.params.length = argc)).foldl addVisible (found.filter (·.params.length = argc)) := by
  induction ms generalizing found with
  | nil => rfl
  | cons m ms ih =>
    rw [List.foldl_cons, ih, List.filter_cons]
    by_cases hm : m.params.length = argc
    · rw [if_pos (decide_eq_true hm), List.foldl_cons]
      have hany : (found.filter (·.params.length = argc)).any (·.params = m.params) = found.any (·.params = m.params) := by
        rw [Bool.eq_iff_iff]
        simp only [List.any_eq_true, List.mem_filter, decide_eq_true_eq]
        exact ⟨fun ⟨a, ha, heq⟩ => ⟨a, ha.1, heq⟩, fun ⟨a, ha, heq⟩ => ⟨a, ⟨ha, by rw [heq, hm]⟩, heq⟩⟩
      unfold addVisible
      rw [hany]
      split
      · rfl
      · rw [List.filter_append, List.filter_cons, if_pos (decide_eq_true hm)]
        rfl
    · rw [if_neg (by simpa using hm)]
      unfold addVisible
      split
      · rfl
      · rw [List.filter_append, List.filter_cons, if_neg (by simpa using hm), List.filter_nil, List.append_nil]

namespace Describes

/-- A method that a class declares itself is the first of its parameters. -/
theorem firstMethod?_own (h : r.Describes l) {n : Name} {e : ClassEntry} (he : r.get? n = some e) {m : MethodEntry}
    {name : String} (hm : m ∈ e.ownMethods name) : firstMethod? (r.chain n) name m.params = some m := by
  rw [h.acyclic.chain_eq he, firstMethod?_cons]
  cases hfind : (e.ownMethods name).find? (·.params = m.params) with
  | none => exact absurd (decide_eq_true rfl) (List.find?_eq_none.1 hfind m hm)
  | some m' =>
    obtain ⟨hmem, hname⟩ := List.mem_filter.1 hm
    obtain ⟨hmem', hname'⟩ := List.mem_filter.1 (List.mem_of_find?_eq_some hfind)
    have hparams : m'.params = m.params := by simpa using List.find?_some hfind
    have hnames : m'.name = m.name := (of_decide_eq_true hname').trans (of_decide_eq_true hname).symm
    rw [List.inj_on_of_nodup_map (h.distinct e (get?_eq_some he).1) hmem' hmem (Prod.ext hnames hparams)]
    rfl

/-- Methods of one name that a class has or inherits have the same result type if they have the same parameters. -/
theorem coherent (h : r.Describes l) (n : Name) (name : String) :
    MethodEntry.Coherent ((r.chain n).flatMap (·.ownMethods name)) := by
  have hfirst : ∀ m ∈ (r.chain n).flatMap (·.ownMethods name),
      ∃ m', firstMethod? (r.chain n) name m.params = some m' ∧ m'.ret = m.ret := by
    intro m hm
    obtain ⟨e, he, hm⟩ := List.mem_flatMap.1 hm
    have hsub : r.isSubclassOf n e.name = true := by
      simpa [isSubclassOf, distance?] using ⟨e, he, rfl⟩
    obtain ⟨m', hm', hret, -⟩ := h.acyclic.firstMethod?_of_suffix h.keepsInherited (h.acyclic.line_chain n)
      (h.acyclic.chain_of_isSubclassOf hsub) (h.firstMethod?_own (get?_of_mem h.nodup (mem_of_mem_chain he)) hm)
    exact ⟨m', hm', hret⟩
  intro a ha b hb heq
  obtain ⟨a', ha', hareturns⟩ := hfirst a ha
  obtain ⟨b', hb', hbreturns⟩ := hfirst b hb
  rw [heq, hb', Option.some.injEq] at ha'
  rw [← hareturns, ← hbreturns, ha']

end Describes

end Registry

/-- The methods of a name and with so many parameters that a class declares itself. -/
theorem ClassEntry.Describes.ownMethods_denote {e : ClassEntry} {k : LoadedClass} (h : e.Describes k) {name : String}
    (hname : name ≠ constructorName) (argc : Nat) :
    List.Forall₂ MethodEntry.Denotes ((e.ownMethods name).filter (·.params.length = argc))
      ((k.methods.filter fun x => x.name = name && x.params.length = argc).map (⟨k, ·⟩)) := by
  obtain ⟨constructors, own, heq, hconstructors, hown⟩ := h.methods
  have hnone : constructors.filter (fun x => x.name = name && x.params.length = argc) = [] := by
    refine List.filter_eq_nil_iff.2 fun x hx hkeep => hname ?_
    simp only [Bool.and_eq_true, decide_eq_true_eq] at hkeep
    exact hkeep.1.symm.trans (hconstructors x hx)
  have howned : List.Forall₂ (fun m x => m.owner = e.name ∧ m.Describes x) e.methods own :=
    (List.forall₂_and_left _ _).2 ⟨h.owners, hown⟩
  rw [heq, List.filter_append, hnone, List.nil_append, List.forall₂_map_right_iff, ownMethods, List.filter_filter]
  refine List.Forall₂.imp (fun m x hx => ⟨h.name.trans hx.1.symm, hx.2⟩) (List.rel_filter ?_ howned)
  intro m x hx
  simp [hx.2.name, hx.2.params, and_comm]

/-- At compile time and at run time a class has the same methods of a name and with so many parameters, in the same order. -/
theorem Registry.Describes.findMethods_denote (h : r.Describes l) {k : LoadedClass}
    (hk : l.resolve? k.name.text = some k) (hregistered : r.contains k.name = true) {name : String}
    (hname : name ≠ constructorName) (argc : Nat) :
    List.Forall₂ MethodEntry.Denotes ((r.findMethods k.name name).filter (·.params.length = argc))
      (k.methodsNamed name argc) := by
  have hdeclared : List.Forall₂ MethodEntry.Denotes
      (((r.chain k.name).flatMap (·.ownMethods name)).filter (·.params.length = argc))
      (k.chain.flatMap fun k => (k.methods.filter fun x => x.name = name && x.params.length = argc).map (⟨k, ·⟩)) := by
    rw [List.filter_flatMap]
    exact List.rel_flatMap (h.forall₂_chain h.entry hk hregistered) fun _ _ hek => hek.ownMethods_denote hname argc
  rw [findMethods, filter_length_foldl_addVisible]
  exact MethodEntry.foldl_denote hdeclared .nil ((h.coherent k.name name).mono (List.filter_subset_self _))

/-! ## Choices -/

/-- The first of the candidates that a choice is left with. -/
def Registry.Choice.first? : Registry.Choice → Option MethodEntry
  | .found m => some m
  | .ambiguous ms => ms.head?
  | .noMatch => none

/-- Of candidates, each with what it costs, this is the first that is as cheap as any. -/
inductive FirstCheapest {α : Type} : List (UInt32 × α) → UInt32 × α → Prop
  | head {c : UInt32 × α} {cs : List (UInt32 × α)} (h : ∀ x ∈ cs, c.1 ≤ x.1) : FirstCheapest (c :: cs) c
  | tail {c d : UInt32 × α} {cs : List (UInt32 × α)} (h : c.1 < d.1) (hc : FirstCheapest cs c) : FirstCheapest (d :: cs) c

namespace FirstCheapest

variable {α β : Type} {cs : List (UInt32 × α)} {c : UInt32 × α}

theorem le (h : FirstCheapest cs c) : ∀ x ∈ cs, c.1 ≤ x.1 := by
  induction h with
  | head h => exact List.forall_mem_cons.2 ⟨UInt32.le_refl _, h⟩
  | tail h _ ih => exact List.forall_mem_cons.2 ⟨UInt32.le_of_lt h, ih⟩

theorem mem (h : FirstCheapest cs c) : c ∈ cs := by
  induction h with
  | head => exact List.mem_cons_self
  | tail _ _ ih => exact List.mem_cons_of_mem _ ih

theorem min? (h : FirstCheapest cs c) : (cs.map (·.1)).min? = some c.1 :=
  List.min?_eq_some_iff.2 ⟨List.mem_map_of_mem h.mem, List.forall_mem_map.2 h.le⟩

theorem head?_filter (h : FirstCheapest cs c) : (cs.filter (·.1 = c.1)).head? = some c := by
  induction h with
  | head h => rw [List.filter_cons_of_pos (by simp), List.head?_cons]
  | tail h _ ih => rw [List.filter_cons_of_neg (by simpa using (UInt32.ne_of_lt h).symm), ih]

/-- It takes the same place in a list of candidates that cost the same. -/
theorem exists_of_forall₂ {R : UInt32 × β → UInt32 × α → Prop} (hR : ∀ x y, R x y → x.1 = y.1) (h : FirstCheapest cs c)
    {bs : List (UInt32 × β)} (hbs : List.Forall₂ R bs cs) : ∃ b, FirstCheapest bs b ∧ R b c := by
  induction h generalizing bs with
  | head h =>
    cases hbs with
    | cons hbc hrest =>
      refine ⟨_, .head fun x hx => ?_, hbc⟩
      obtain ⟨y, hy, hxy⟩ := exists_right hrest hx
      rw [hR _ _ hbc, hR _ _ hxy]
      exact h y hy
  | tail h _ ih =>
    cases hbs with
    | cons hbd hrest =>
      obtain ⟨b, hb, hbc⟩ := ih hrest
      refine ⟨b, .tail ?_ hb, hbc⟩
      rw [hR _ _ hbc, hR _ _ hbd]
      exact h

end FirstCheapest

/-- The machine goes through the candidates and keeps one, which is the first that is as cheap as any. -/
theorem Heap.exists_foldl_cheaper (best : UInt32 × Target) (cs : List (UInt32 × Target)) :
    ∃ c, cs.foldl cheaper (some best) = some c ∧ FirstCheapest (best :: cs) c := by
  induction cs generalizing best with
  | nil => exact ⟨best, rfl, .head (List.forall_mem_nil _)⟩
  | cons d cs ih =>
    rw [List.foldl_cons, cheaper]
    split
    · rename_i hlt
      obtain ⟨c, hfold, hc⟩ := ih d
      exact ⟨c, hfold, .tail (UInt32.lt_of_le_of_lt (hc.le d List.mem_cons_self) hlt) hc⟩
    · rename_i hge
      have hle : best.1 ≤ d.1 := UInt32.not_lt.1 hge
      obtain ⟨c, hfold, hc⟩ := ih best
      refine ⟨c, hfold, ?_⟩
      cases hc with
      | head h => exact .head (List.forall_mem_cons.2 ⟨hle, h⟩)
      | tail h hc => exact .tail h (.tail (UInt32.lt_of_lt_of_le h hle) hc)

theorem Registry.select_filter (r : Registry) (ms : List MethodEntry) (args : List Ty) :
    r.select (ms.filter (·.params.length = args.length)) args = r.select ms args := by
  have hviable : (ms.filter (·.params.length = args.length)).filterMap (fun m => (r.callCost args m.params).map (·, m)) =
      ms.filterMap fun m => (r.callCost args m.params).map (·, m) := by
    rw [List.filterMap_filter]
    refine List.filterMap_congr fun m _ => ?_
    split
    · rfl
    · rename_i hlength
      rw [callCost, if_neg (by simpa using hlength)]
      rfl
  rw [select, select, hviable]

/-- A choice by types is left with the first candidate that is as cheap as any, and perhaps with others. -/
theorem Registry.first?_select {ms : List MethodEntry} {args : List Ty} {c : UInt32 × MethodEntry}
    (h : FirstCheapest (ms.filterMap fun m => (r.callCost args m.params).map (·, m)) c) :
    (r.select ms args).first? = some c.2 := by
  have hfirst := congrArg (Option.map (·.2)) h.head?_filter
  rw [← List.head?_map, Option.map_some] at hfirst
  rw [select]
  simp only [h.min?]
  split
  · rename_i m hone
    rw [hone] at hfirst
    exact hfirst
  · exact hfirst

/-- Candidates with what they cost are the same. -/
def MethodEntry.Offers (x : UInt32 × MethodEntry) (y : UInt32 × Target) : Prop := x.1 = y.1 ∧ x.2.Denotes y.2

/-- Candidates that are the same and cost the same lead to the same choice; of several that are left the machine takes the
first. -/
theorem Heap.select?_denotes {h : Heap} {args : List Value} {types : List Ty} {ms : List MethodEntry} {ts : List Target}
    (hms : List.Forall₂ MethodEntry.Denotes ms ts)
    (hcost : ∀ m t, MethodEntry.Denotes m t → r.callCost types m.params = h.callCost args t.method.params) :
    Option.Rel MethodEntry.Denotes (r.select ms types).first? (h.select? ts args) := by
  have hoffers : List.Forall₂ MethodEntry.Offers
      (ms.filterMap fun m => (r.callCost types m.params).map (·, m))
      (ts.filterMap fun t => (h.callCost args t.method.params).map (·, t)) := by
    refine List.rel_filterMap (fun m t hmt => ?_) hms
    rw [hcost m t hmt]
    cases h.callCost args t.method.params with
    | none => exact .none
    | some cost => exact .some ⟨rfl, hmt⟩
  generalize hxs : ms.filterMap (fun m => (r.callCost types m.params).map (·, m)) = xs at hoffers
  rw [select?]
  generalize ts.filterMap (fun t => (h.callCost args t.method.params).map (·, t)) = ys at hoffers ⊢
  cases ys with
  | nil =>
    obtain rfl := List.forall₂_nil_right_iff.1 hoffers
    rw [Registry.select, hxs]
    exact .none
  | cons y ys =>
    obtain ⟨c, hfold, hc⟩ := exists_foldl_cheaper y ys
    obtain ⟨x, hx, hxc⟩ := hc.exists_of_forall₂ (fun _ _ hxy => hxy.1) hoffers
    rw [Registry.first?_select (hxs ▸ hx), List.foldl_cons]
    exact (congrArg (Option.Rel MethodEntry.Denotes (some x.2)) (congrArg (Option.map _) hfold)).mpr (.some hxc.2)

/-- The choice that is made by the types of the arguments is the one that is made by the arguments. -/
theorem Registry.Describes.resolveMethod_denotes (hr : r.Describes l) {k : LoadedClass}
    (hk : l.resolve? k.name.text = some k) (hregistered : r.contains k.name = true) {name : String}
    (hname : name ≠ constructorName) {h : Heap} {args : List Value} (hargs : ∀ v ∈ args, h.Known r l v) :
    Option.Rel MethodEntry.Denotes (r.resolveMethod k.name name (args.map h.typeOf)).first?
      (h.select? (k.methodsNamed name args.length) args) := by
  rw [resolveMethod, ← select_filter, List.length_map]
  refine Heap.select?_denotes (hr.findMethods_denote hk hregistered hname args.length) fun m t hmt => ?_
  rw [hmt.method.params, hr.callCost_eq hargs hmt.method.isValue]

/-! ## Compiled classes -/

/-- Beside the host library alone, every object is known whose class the loader holds. -/
theorem Compilation.Built.known_of_resolve? {c : Compilation} (hc : c.Built) {h : Heap} {v : Value}
    (hheld : ∀ id, v = .object id → ∃ k, h.class? id = some k ∧
      ((c.compile .classGeneration).2.loadInto .boot).2.resolve? k.name.text = some k) :
    h.Known c.resolved ((c.compile .classGeneration).2.loadInto .boot).2 v := by
  intro id hid
  obtain ⟨k, hclass, hk⟩ := hheld id hid
  exact ⟨k, hclass, hk, hc.contains_of_loadInto_boot hk⟩

/-- Classes that were resolved without findings and then loaded: a value can be converted iff it has a cost as an argument. The
cost is that of its type, unless it is an object of a class that is not registered; and without such objects, what is resolved by
the types of arguments is what the machine selects for the arguments themselves. -/
theorem Compilation.Built.selects_resolved {c : Compilation} (hc : c.Built) (hclean : c.resolutionFindings = [])
    {l₀ l : Loader} (hl₀ : l₀.Reachable) (hnew : ∀ d ∈ c.defs, l₀.contains d.name.text = false)
    (hl : l = ((c.compile .classGeneration).2.loadInto l₀).2) (h : Heap) :
    (∀ name k, l.resolve? name = some k → ∀ m ∈ k.methods, ∀ t ∈ m.params, ∀ v,
      ((∃ v', h.coerce v t = .ok v') ↔ (h.argumentCost v t).isSome = true) ∧
        (h.Known c.resolved l v → h.argumentCost v t = c.resolved.conversionCost (h.typeOf v) t)) ∧
    ∀ args, (∀ v ∈ args, h.Known c.resolved l v) → ∀ cls k, c.resolved.contains cls = true →
      l.resolve? cls.text = some k → ∀ name, name ≠ constructorName →
      (∀ m, c.resolved.resolveMethod cls name (args.map h.typeOf) = .found m →
        ∃ t, h.select? (k.methodsNamed name args.length) args = some t ∧ t.cls.name = m.owner ∧
          t.method.descriptor = m.descriptor) ∧
      (c.resolved.resolveMethod cls name (args.map h.typeOf) = .noMatch →
        h.select? (k.methodsNamed name args.length) args = none) := by
  subst hl
  have hreachable : ((c.compile .classGeneration).2.loadInto l₀).2.Reachable := hl₀.defineAll _
  have hr := hc.describes hclean hl₀ hnew
  refine ⟨fun n k hk m hm t ht v => ?_, fun args hargs cls k hregistered hk name hname => ?_⟩
  · have hvalue : t.IsValue := hreachable.isValue hk hm t ht
    exact ⟨Heap.exists_coerce_iff hvalue, fun hknown => hr.argumentCost_eq hknown hvalue⟩
  · obtain rfl : k.name = cls := Name.text_inj.1 (hreachable.wellFormed.named _ _ hk)
    have hchoice := hr.resolveMethod_denotes hk hregistered hname hargs
    refine ⟨fun m hfound => ?_, fun hnone => ?_⟩
    · rw [hfound] at hchoice
      generalize h.select? (k.methodsNamed name args.length) args = selected at hchoice ⊢
      cases hchoice with
      | some hmt => exact ⟨_, rfl, hmt.owner, hmt.method.descriptor⟩
    · rw [hnone] at hchoice
      generalize h.select? (k.methodsNamed name args.length) args = selected at hchoice ⊢
      cases hchoice with
      | none => rfl

/-! ## An example -/

namespace Label

def className : Name := .ofPath ["A"] (Eq.refl true)

/-- A class with a method of the name of one that it inherits, for numbers instead of objects. -/
def cls : ClassDef where
  name := className
  members := [.method ⟨"equals", .pub, [⟨"n", .long⟩], .boolean, some [.ret (some (.lit (.bool true)))]⟩]

def compilation : Compilation := { modules := [{ name := Module.syntheticName className, cls }], index := [("A", 0)] }

theorem built : compilation.Built := .add (d := cls) (.start {} Module.syntheticName) rfl

/-- The class file that the class is compiled to. -/
def file : ClassFile where
  constants := #[.utf8 "A", .cls 1, .utf8 "lang.Object", .cls 3, .utf8 "<init>", .utf8 "()V", .methodRef 4 5 6,
    .utf8 "equals", .utf8 "(J)Z"]
  access := .pub
  thisClass := 2
  superClass := 4
  inner := []
  fields := []
  methods := [
    { access := .pub, name := 5, descriptor := 6, maxLocals := 1, code := #[9, 0, 0, 17, 0, 7, 43] },
    { access := .pub, name := 8, descriptor := 9, maxLocals := 2, code := #[2, 42] }]

theorem verify_file : file.verify = .ok () := by
  have hconstants : file.constants.verify = .ok () := by
    have hcs : file.constants.toList =
        Constants.belowRoot className ++ [.methodRef 4 5 6, .utf8 "equals", .utf8 "(J)Z"] := rfl
    refine Constants.verify_belowRoot hcs ?_
    simp only [Constants.verifyFrom, bind_eq_ok]
    exact ⟨(), Constants.verifyAt_superConstructor hcs, (), rfl, (), rfl, trivial⟩
  have hheader : file.verifyHeader = .ok className := rfl
  have hmethods : file.verifyMethods = .ok () := by cbv
  simp only [ClassFile.verify, bind_eq_ok]
  exact ⟨(), hconstants, className, hheader, (), rfl, (), rfl, hmethods⟩

/-- The bytes of the class file. -/
def bytes : Bytes := file.encode.toOption.getD []

theorem encode_file : file.encode = .ok bytes := by cbv

theorem compile_eq : compilation.resolutionFindings = [] ∧ (compilation.compile .classGeneration).2.modules =
    [{ name := Module.syntheticName className, cls, lowered := some (cls.lower true), artifact := some bytes }] := by
  cbv

/-- The class with its class file. -/
def artifact : Artifact := ⟨className, bytes⟩

theorem accepted : artifact.Accepted file where
  decoded := (Reads.classFile rfl (by decide) encode_file).decode
  verified := verify_file
  named := rfl

theorem artifacts_eq : (compilation.compile .classGeneration).2.artifacts = [artifact] := by
  rw [Compilation.artifacts, compile_eq.2]
  rfl

/-- The loader that holds the class beside the host library. -/
def loader : Loader := ((compilation.compile .classGeneration).2.loadInto .boot).2

theorem contains_boot : Loader.boot.contains className.text = false := Loader.contains_boot (by decide)

theorem fits : Loader.boot.Fits [artifact] := Loader.fits_singleton Loader.wellFormed_boot accepted contains_boot rfl

theorem exists_resolve? : ∃ k, loader.resolve? className.text = some k := by
  obtain ⟨cs, hcs⟩ := (fits.exists_defineAllBy_iff Dependencies.toposort_sorted?).2 (.inr (List.pairwise_singleton _ _))
  have hdefined := fits.contains_of_defineAllBy Dependencies.toposort_sorted? hcs List.mem_cons_self
  rw [← artifacts_eq] at hdefined
  exact Option.isSome_iff_exists.1 hdefined

theorem contains_resolved : compilation.resolved.contains className = true :=
  built.contains_of_mem_defs (d := cls) List.mem_cons_self

theorem conversionCost_eq : compilation.resolved.conversionCost (.ref className) .object = some 1 := rfl

/-- With an instance of the class the method is found that the class inherits, and with a truth value none. -/
theorem resolveMethod_eq :
    compilation.resolved.resolveMethod className "equals" [.ref className] =
        .found ⟨.object, "equals", .pub, [.object], .boolean, false⟩ ∧
      compilation.resolved.resolveMethod className "equals" [.boolean] = .noMatch :=
  ⟨by with_unfolding_all rfl, by with_unfolding_all rfl⟩

theorem new : ∀ d ∈ compilation.defs, Loader.boot.contains d.name.text = false := by
  intro d hd
  obtain rfl := List.mem_singleton.1 hd
  exact contains_boot

/-- A heap with an instance of a class and nothing else. -/
def heap (k : LoadedClass) : Heap := (Heap.empty.alloc k).2

theorem known {k : LoadedClass} (hk : loader.resolve? className.text = some k) (hname : k.name = className) :
    (heap k).Known compilation.resolved loader (.object 0) := by
  refine built.known_of_resolve? ?_
  rintro id ⟨⟩
  exact ⟨k, rfl, hname ▸ hk⟩

theorem typeOf_eq {k : LoadedClass} (hname : k.name = className) : (heap k).typeOf (.object 0) = .ref className := by
  rw [← hname]
  rfl

theorem argumentCost_eq {k : LoadedClass} (hk : loader.resolve? className.text = some k) (hname : k.name = className) :
    (heap k).argumentCost (.object 0) .object = some 1 := by
  have hr := built.describes compile_eq.1 .boot new
  rw [hr.argumentCost_eq (known hk hname) (by decide), typeOf_eq hname, conversionCost_eq]

end Label

/-- An instance of the class is compared by the method that the class inherits, one step up, and a truth value by none. -/
theorem Compilation.Built.selects_resolved_label :
    Label.compilation.Built ∧ Label.compilation.resolutionFindings = [] ∧
      (∀ d ∈ Label.compilation.defs, Loader.boot.contains d.name.text = false) ∧
      ∃ k, Label.loader.resolve? Label.className.text = some k ∧
        (Label.heap k).Known Label.compilation.resolved Label.loader (.object 0) ∧
        (Label.heap k).argumentCost (.object 0) .object = some 1 ∧
        (∃ t, (Label.heap k).select? (k.methodsNamed "equals" 1) [.object 0] = some t ∧ t.cls.name = .object ∧
          t.method.descriptor = "(Llang.Object;)Z") ∧
        (Label.heap k).select? (k.methodsNamed "equals" 1) [.bool true] = none := by
  obtain ⟨k, hk⟩ := Label.exists_resolve?
  have hreachable : Label.loader.Reachable := Loader.Reachable.boot.defineAll _
  have hname : k.name = Label.className := Name.text_inj.1 (hreachable.wellFormed.named _ _ hk)
  have hknown := Label.known hk hname
  have htype := Label.typeOf_eq hname
  have htypes : [Value.object 0].map (Label.heap k).typeOf = [.ref Label.className] := congrArg (fun t => [t]) htype
  obtain ⟨m, hm, ht⟩ : ∃ m ∈ LoadedClass.object.methods, Ty.object ∈ m.params := by decide
  have hroot := hreachable.wellFormed.hosts .object (by simp [LoadedClass.hosts])
  have hobjects : ∀ v ∈ [Value.object 0], (Label.heap k).Known Label.compilation.resolved Label.loader v :=
    fun v hv => List.mem_singleton.1 hv ▸ hknown
  have htruths : ∀ v ∈ [Value.bool true], (Label.heap k).Known Label.compilation.resolved Label.loader v :=
    fun v hv => List.mem_singleton.1 hv ▸ by rintro _ ⟨⟩
  obtain ⟨hcost, hselects⟩ := Label.built.selects_resolved Label.compile_eq.1 .boot Label.new rfl (Label.heap k)
  refine ⟨Label.built, Label.compile_eq.1, Label.new, k, hk, hknown, ?_, ?_, ?_⟩
  · rw [(hcost _ _ hroot m hm .object ht _).2 hknown, htype, Label.conversionCost_eq]
  · exact (hselects _ hobjects Label.className k Label.contains_resolved hk "equals" (by decide)).1 _
      (htypes ▸ Label.resolveMethod_eq.1)
  · exact (hselects _ htruths Label.className k Label.contains_resolved hk "equals" (by decide)).2 Label.resolveMethod_eq.2

/-! ## An object of another compilation's class -/

namespace Unrelated

def className : Name := .ofPath ["B"] (Eq.refl true)

/-- A class without members, compiled on its own. -/
def cls : ClassDef := { name := className, members := [] }

def compilation : Compilation := { modules := [{ name := Module.syntheticName className, cls }], index := [("B", 0)] }

theorem built : compilation.Built := .add (d := cls) (.start {} Module.syntheticName) rfl

/-- The class file that the class is compiled to. -/
def file : ClassFile where
  constants := #[.utf8 "B", .cls 1, .utf8 "lang.Object", .cls 3, .utf8 "<init>", .utf8 "()V", .methodRef 4 5 6]
  access := .pub
  thisClass := 2
  superClass := 4
  inner := []
  fields := []
  methods := [{ access := .pub, name := 5, descriptor := 6, maxLocals := 1, code := #[9, 0, 0, 17, 0, 7, 43] }]

theorem verify_file : file.verify = .ok () := by
  have hconstants : file.constants.verify = .ok () := by
    have hcs : file.constants.toList = Constants.belowRoot className ++ [.methodRef 4 5 6] := rfl
    refine Constants.verify_belowRoot hcs ?_
    simp only [Constants.verifyFrom, bind_eq_ok]
    exact ⟨(), Constants.verifyAt_superConstructor hcs, trivial⟩
  have hheader : file.verifyHeader = .ok className := rfl
  have hmethods : file.verifyMethods = .ok () := by cbv
  simp only [ClassFile.verify, bind_eq_ok]
  exact ⟨(), hconstants, className, hheader, (), rfl, (), rfl, hmethods⟩

/-- The bytes of the class file. -/
def bytes : Bytes := file.encode.toOption.getD []

theorem encode_file : file.encode = .ok bytes := by cbv

/-- The class with its class file. -/
def artifact : Artifact := ⟨className, bytes⟩

theorem accepted : artifact.Accepted file where
  decoded := (Reads.classFile rfl (by decide) encode_file).decode
  verified := verify_file
  named := rfl

theorem compile_eq : compilation.resolutionFindings = [] ∧ (compilation.compile .classGeneration).2.modules =
    [{ name := Module.syntheticName className, cls, lowered := some (cls.lower true), artifact := some bytes }] := by
  cbv

theorem artifacts_eq : (compilation.compile .classGeneration).2.artifacts = [artifact] := by
  rw [Compilation.artifacts, compile_eq.2]
  rfl

/-- The other class is not known, so no method takes an instance of it. -/
theorem resolveMethod_eq : compilation.resolved.conversionCost (.ref Label.className) .object = none ∧
    compilation.resolved.resolveMethod .object "equals" [.ref Label.className] = .noMatch :=
  ⟨rfl, by with_unfolding_all rfl⟩

theorem reachable_label : Label.loader.Reachable := Loader.Reachable.boot.defineAll _

theorem contains_label : Label.loader.contains className.text = false := by
  rw [← Bool.not_eq_true]
  intro hheld
  obtain ⟨k, hk⟩ := Option.isSome_iff_exists.1 hheld
  obtain ⟨-, -, a, ha, hname, -⟩ :=
    Loader.exists_define_of_defineAll Loader.wellFormed_boot hk (Loader.contains_boot (by decide))
  rw [Label.artifacts_eq, List.mem_singleton] at ha
  subst ha
  exact absurd hname (by decide)

theorem new : ∀ d ∈ compilation.defs, Label.loader.contains d.name.text = false := by
  intro d hd
  obtain rfl := List.mem_singleton.1 hd
  exact contains_label

theorem exists_loadInto : ∃ cs, ((compilation.compile .classGeneration).2.loadInto Label.loader).1 = .ok cs := by
  have fits : Label.loader.Fits [artifact] :=
    Loader.fits_singleton reachable_label.wellFormed accepted contains_label rfl
  rw [Compilation.loadInto, artifacts_eq]
  exact (fits.exists_defineAllBy_iff Dependencies.toposort_sorted?).2 (.inr (List.pairwise_singleton _ _))

end Unrelated

/-- Two classes of the same loader that were compiled on their own: by its type an instance of the one cannot be passed where the
other's compilation expects an instance of the root class, and no method is resolved; but at run time it costs one step up, and
a method is selected. -/
theorem Compilation.selects_unresolved :
    Unrelated.compilation.Built ∧ Unrelated.compilation.resolutionFindings = [] ∧ Label.loader.Reachable ∧
      (∀ d ∈ Unrelated.compilation.defs, Label.loader.contains d.name.text = false) ∧
      (∃ cs, ((Unrelated.compilation.compile .classGeneration).2.loadInto Label.loader).1 = .ok cs) ∧
      ∃ k, ((Unrelated.compilation.compile .classGeneration).2.loadInto Label.loader).2.resolve? Label.className.text = some k ∧
        (Label.heap k).typeOf (.object 0) = .ref Label.className ∧
        (Label.heap k).argumentCost (.object 0) .object = some 1 ∧
        Unrelated.compilation.resolved.conversionCost (.ref Label.className) .object = none ∧
        Unrelated.compilation.resolved.resolveMethod .object "equals" [.ref Label.className] = .noMatch ∧
        ∃ t, (Label.heap k).select? (LoadedClass.object.methodsNamed "equals" 1) [.object 0] = some t := by
  obtain ⟨k, hk⟩ := Label.exists_resolve?
  have hname : k.name = Label.className := Name.text_inj.1 (Unrelated.reachable_label.wellFormed.named _ _ hk)
  have hcost := Label.argumentCost_eq hk hname
  have hheld := (Loader.kept_extends Label.loader).defineAll (fun _ _ h => h)
    (Unrelated.compilation.compile .classGeneration).2.artifacts _ k hk
  obtain ⟨t, hcandidates, hparams⟩ :
      ∃ t, LoadedClass.object.methodsNamed "equals" 1 = [t] ∧ t.method.params = [.object] := ⟨_, rfl, rfl⟩
  refine ⟨Unrelated.built, Unrelated.compile_eq.1, Unrelated.reachable_label, Unrelated.new,
    Unrelated.exists_loadInto, k, hheld, Label.typeOf_eq hname, hcost, Unrelated.resolveMethod_eq.1,
    Unrelated.resolveMethod_eq.2, t, ?_⟩
  simp [hcandidates, Heap.select?, Heap.callCost, Heap.cheaper, hparams, hcost]

end ClassTree
