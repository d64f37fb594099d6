import Mathlib
import ClassTree.Proofs.Registry.Chain

/-!
# Inheritance cycles

The search for the classes that a class inherits from finds what links lead to and nothing else
(`Inheritance.mem_ancestors_iff`), so a class is cyclic iff links lead from it back to itself (`Inheritance.isCyclic_iff`). The
circle of such a class is all classes that links lead to and back from; the cycles are the circles, each once and in order
(`Inheritance.mem_cycles_iff`, `Inheritance.increasing_cycles`). Two lists in strict order with the same members are equal
(`eq_of_increasing`), so the cycles depend on nothing but which links there are (`Inheritance.cycles_congr`), and they are what
is left of the strongly connected components when those without a cycle are taken away (`Inheritance.cyclesIn_eq`).
-/

namespace ClassTree

open Std Relation

/-! ## Lists in strict order -/

section Order

variable {α : Type} {cmp : α → α → Ordering}

theorem nodup_of_increasing [ReflCmp cmp] {xs : List α} (h : xs.Pairwise (cmp · · = .lt)) : xs.Nodup := by
  refine h.imp fun {a b} hlt heq => ?_
  have hself : cmp b b = .eq := ReflCmp.compare_self
  rw [heq, hself] at hlt
  cases hlt

variable [TransCmp cmp] [LawfulEqCmp cmp]

/-- In strict order the members tell the list. -/
theorem eq_of_increasing {xs ys : List α} (hxs : xs.Pairwise (cmp · · = .lt)) (hys : ys.Pairwise (cmp · · = .lt))
    (hmem : ∀ a, a ∈ xs ↔ a ∈ ys) : xs = ys := by
  have hperm := (List.perm_ext_iff_of_nodup (nodup_of_increasing hxs) (nodup_of_increasing hys)).2 hmem
  refine hperm.eq_of_pairwise (fun a b _ _ hab hba => ?_) hxs hys
  have hswap : cmp a b = (cmp b a).swap := OrientedCmp.eq_swap
  rw [hswap, hba] at hab
  cases hab

/-- Sorting members that occur once puts them in strict order. -/
theorem increasing_mergeSort {xs : List α} {le : α → α → Bool} (hle : ∀ a b, le a b = (cmp a b).isLE) (h : xs.Nodup) :
    (xs.mergeSort le).Pairwise (cmp · · = .lt) := by
  have hsorted : (xs.mergeSort le).Pairwise (le · · = true) := by
    refine List.pairwise_mergeSort (fun a b c => ?_) (fun a b => ?_) xs
    · simp only [hle]
      exact TransCmp.isLE_trans
    · have hswap : cmp b a = (cmp a b).swap := OrientedCmp.eq_swap
      rw [hle, hle, hswap]
      cases cmp a b <;> rfl
  have hnodup : (xs.mergeSort le).Nodup := (List.mergeSort_perm xs le).nodup_iff.2 h
  refine (List.pairwise_and_iff.2 ⟨hsorted, hnodup⟩).imp fun {a b} hab => ?_
  obtain ⟨hab, hne⟩ := hab
  rw [hle, Ordering.isLE_iff_eq_lt_or_eq_eq] at hab
  exact hab.resolve_right fun heq => hne (LawfulEqCmp.eq_of_compare heq)

end Order

theorem nodup_eraseDups {α : Type} [BEq α] [LawfulBEq α] (xs : List α) : xs.eraseDups.Nodup := by
  induction h : xs.length using Nat.strong_induction_on generalizing xs with
  | _ k ih =>
    cases xs with
    | nil => exact .nil
    | cons x xs =>
      rw [List.eraseDups_cons, List.nodup_cons, List.mem_eraseDups]
      refine ⟨by simp, ih _ ?_ _ rfl⟩
      rw [← h, List.length_cons]
      exact Nat.lt_succ_of_le (List.length_filter_le ..)

namespace Name

/-- The order of names as a comparison: by package, then by nesting path. -/
def cmp : Name → Name → Ordering := compareLex (compareOn Name.package) (compareOn Name.path)

instance : TransCmp cmp := inferInstanceAs (TransCmp (compareLex _ _))

instance : LawfulEqCmp cmp where
  eq_of_compare {a b} h := by
    obtain ⟨hpackage, hpath⟩ := compareLex_eq_eq.1 h
    obtain ⟨package, path, _, _, _⟩ := a
    obtain ⟨package', path', _, _, _⟩ := b
    obtain rfl : package = package' := LawfulEqCmp.eq_of_compare hpackage
    obtain rfl : path = path' := LawfulEqCmp.eq_of_compare hpath
    rfl

theorem le_eq (a b : Name) : a.le b = (cmp a b).isLE := rfl

end Name

namespace Inheritance

variable {g : Inheritance} {a b n m : Name} {group : List Name} {cs : List (List Name)}

/-! ## Links -/

/-- An edge leads from the first class to the second. -/
def Links (g : Inheritance) (a b : Name) : Prop := (a, b) ∈ g.edges

theorem mem_parents_iff : b ∈ g.parents a ↔ g.Links a b := by
  simp [parents, Links]

theorem mem_nodes_iff : n ∈ g.nodes ↔ ∃ m, g.Links n m ∨ g.Links m n := by
  simp only [nodes, List.mem_eraseDups, List.mem_flatMap, Prod.exists, List.mem_cons, List.not_mem_nil, or_false, Links]
  constructor
  · rintro ⟨a, b, hab, rfl | rfl⟩
    · exact ⟨b, .inl hab⟩
    · exact ⟨a, .inr hab⟩
  · rintro ⟨m, hm | hm⟩
    · exact ⟨n, m, hm, .inl rfl⟩
    · exact ⟨m, n, hm, .inr rfl⟩

theorem nodup_nodes : g.nodes.Nodup := nodup_eraseDups _

/-- What the search visits can be reached from where it begins. -/
theorem reaches_of_mem_visit {fuel : Nat} {todo seen : List Name} (h : m ∈ g.visit fuel todo seen) :
    m ∈ seen ∨ ∃ t ∈ todo, ReflTransGen g.Links t m := by
  induction fuel generalizing todo seen with
  | zero => exact .inl h
  | succ fuel ih =>
    cases todo with
    | nil => exact .inl h
    | cons t todo =>
      rw [visit] at h
      split at h
      · rcases ih h with hseen | ⟨x, hx, hreach⟩
        · exact .inl hseen
        · exact .inr ⟨x, List.mem_cons_of_mem _ hx, hreach⟩
      · rcases ih h with hseen | ⟨x, hx, hreach⟩
        · rcases List.mem_cons.1 hseen with rfl | hseen
          · exact .inr ⟨m, List.mem_cons_self, .refl⟩
          · exact .inl hseen
        · rcases List.mem_append.1 hx with hx | hx
          · exact .inr ⟨t, List.mem_cons_self, .head (mem_parents_iff.1 hx) hreach⟩
          · exact .inr ⟨x, List.mem_cons_of_mem _ hx, hreach⟩

/-- A class inherits from what one or more links lead to. -/
theorem mem_ancestors_iff : m ∈ g.ancestors n ↔ TransGen g.Links n m := by
  constructor
  · intro h
    rcases reaches_of_mem_visit h with hm | ⟨t, ht, hreach⟩
    · cases hm
    · exact .head' (mem_parents_iff.1 ht) hreach
  · intro h
    exact mem_ancestors (TransGen.mono (fun _ _ => mem_parents_iff.2) _ _ h)

theorem isCyclic_iff : g.isCyclic n = true ↔ TransGen g.Links n n := by
  rw [isCyclic, decide_eq_true_iff, mem_ancestors_iff]

theorem mem_nodes_of_reaches (h : TransGen g.Links n m) : n ∈ g.nodes := by
  obtain ⟨x, hx, -⟩ := TransGen.head'_iff.1 h
  exact mem_nodes_iff.2 ⟨x, .inl hx⟩

/-! ## Circles -/

/-- The classes that links lead to from a class and back, sorted. -/
def circle (g : Inheritance) (n : Name) : List Name :=
  ((g.nodes.filter g.isCyclic).filter fun m => decide (m ∈ g.ancestors n) && decide (n ∈ g.ancestors m)).mergeSort Name.le

theorem mem_circle_iff : m ∈ g.circle n ↔ TransGen g.Links n m ∧ TransGen g.Links m n := by
  simp only [circle, List.mem_mergeSort, List.mem_filter, Bool.and_eq_true, decide_eq_true_eq, mem_ancestors_iff, isCyclic_iff]
  exact ⟨fun h => h.2, fun h => ⟨⟨mem_nodes_of_reaches h.2, h.2.trans h.1⟩, h⟩⟩

theorem increasing_circle : (g.circle n).Pairwise (Name.cmp · · = .lt) :=
  increasing_mergeSort Name.le_eq ((nodup_nodes.filter _).filter _)

/-- Circles that meet are the same. -/
theorem circle_eq_of_mem (h : m ∈ g.circle n) : g.circle m = g.circle n := by
  obtain ⟨hnm, hmn⟩ := mem_circle_iff.1 h
  refine eq_of_increasing increasing_circle increasing_circle fun x => ?_
  rw [mem_circle_iff, mem_circle_iff]
  exact ⟨fun ⟨hmx, hxm⟩ => ⟨hnm.trans hmx, hxm.trans hmn⟩, fun ⟨hnx, hxn⟩ => ⟨hmn.trans hnx, hxn.trans hnm⟩⟩

/-- By first names; a list without names comes first. -/
def headLe (xs ys : List Name) : Bool :=
  match xs, ys with
  | x :: _, y :: _ => x.le y
  | [], _ => true
  | _ :: _, [] => false

theorem cycles_eq : g.cycles = (((g.nodes.filter g.isCyclic).map g.circle).eraseDups).mergeSort headLe := by
  have hcyclic : (g.nodes.map fun n => (n, g.ancestors n)).filter (fun x => decide (x.1 ∈ x.2)) =
      (g.nodes.filter g.isCyclic).map fun n => (n, g.ancestors n) := by
    rw [List.filter_map]
    rfl
  have hgroup : ∀ n, ((((g.nodes.filter g.isCyclic).map fun n => (n, g.ancestors n)).filter fun x =>
      decide (x.1 ∈ g.ancestors n) && decide (n ∈ x.2)).map (·.1)).mergeSort Name.le = g.circle n := by
    intro n
    rw [List.filter_map, List.map_map]
    exact congrArg (List.mergeSort · Name.le) (List.map_id _)
  unfold cycles
  dsimp only
  rw [hcyclic, List.map_map]
  refine congrArg (fun groups => (List.eraseDups groups).mergeSort headLe) (List.map_congr_left fun n _ => hgroup n)

theorem mem_cycles_iff : group ∈ g.cycles ↔ ∃ n, TransGen g.Links n n ∧ g.circle n = group := by
  simp only [cycles_eq, List.mem_mergeSort, List.mem_eraseDups, List.mem_map, List.mem_filter, isCyclic_iff]
  exact ⟨fun ⟨n, ⟨_, hn⟩, hgroup⟩ => ⟨n, hn, hgroup⟩, fun ⟨n, hn, hgroup⟩ => ⟨n, ⟨mem_nodes_of_reaches hn, hn⟩, hgroup⟩⟩

/-- The cycles are in strict order: if their first names are the same, so are they. -/
theorem increasing_cycles : g.cycles.Pairwise (List.compareLex Name.cmp · · = .lt) := by
  have hsorted : g.cycles.Pairwise (headLe · · = true) := by
    rw [cycles_eq]
    refine List.pairwise_mergeSort (fun xs ys zs => ?_) (fun xs ys => ?_) _
    · cases xs <;> cases ys <;> cases zs <;> simp only [headLe, Name.le_eq] <;> first | exact TransCmp.isLE_trans | simp
    · cases xs <;> cases ys <;> simp only [headLe, Name.le_eq] <;> try rfl
      rename_i x _ y _
      have hswap : Name.cmp y x = (Name.cmp x y).swap := OrientedCmp.eq_swap
      rw [hswap]
      cases Name.cmp x y <;> rfl
  have hnodup : g.cycles.Nodup := by
    rw [cycles_eq]
    exact (List.mergeSort_perm _ _).nodup_iff.2 (nodup_eraseDups _)
  refine (List.pairwise_and_iff.2 ⟨hsorted, hnodup⟩).imp_of_mem fun {xs ys} hxs hys ⟨hle, hne⟩ => ?_
  obtain ⟨n, hn, rfl⟩ := mem_cycles_iff.1 hxs
  obtain ⟨m, hm, rfl⟩ := mem_cycles_iff.1 hys
  have hnn : n ∈ g.circle n := mem_circle_iff.2 ⟨hn, hn⟩
  have hmm : m ∈ g.circle m := mem_circle_iff.2 ⟨hm, hm⟩
  cases hx : g.circle n with
  | nil => rw [hx] at hnn; cases hnn
  | cons x xs =>
    cases hy : g.circle m with
    | nil => rw [hy] at hmm; cases hmm
    | cons y ys =>
      have hxy : x ≠ y := by
        rintro rfl
        exact hne ((circle_eq_of_mem (hx ▸ List.mem_cons_self)).symm.trans (circle_eq_of_mem (hy ▸ List.mem_cons_self)))
      rw [hx, hy, headLe, Name.le_eq, Ordering.isLE_iff_eq_lt_or_eq_eq] at hle
      have hlt := hle.resolve_right fun heq => hxy (LawfulEqCmp.eq_of_compare heq)
      rw [List.compareLex_cons_cons, hlt]
      rfl

/-- A list of names is a cycle iff it holds, in strict order, all names that links lead to and back from a name on a cycle. -/
theorem mem_cycles_iff_increasing : group ∈ g.cycles ↔ group.Pairwise (Name.cmp · · = .lt) ∧
    ∃ n, TransGen g.Links n n ∧ ∀ m, m ∈ group ↔ TransGen g.Links n m ∧ TransGen g.Links m n := by
  rw [mem_cycles_iff]
  constructor
  · rintro ⟨n, hn, rfl⟩
    exact ⟨increasing_circle, n, hn, fun _ => mem_circle_iff⟩
  · rintro ⟨hincreasing, n, hn, hmem⟩
    exact ⟨n, hn, eq_of_increasing increasing_circle hincreasing fun m => mem_circle_iff.trans (hmem m).symm⟩

theorem isCyclic_iff_mem_cycles : g.isCyclic n = true ↔ ∃ group ∈ g.cycles, n ∈ group := by
  rw [isCyclic_iff]
  constructor
  · intro hn
    exact ⟨g.circle n, mem_cycles_iff.2 ⟨n, hn, rfl⟩, mem_circle_iff.2 ⟨hn, hn⟩⟩
  · rintro ⟨_, hgroup, hn⟩
    obtain ⟨m, -, rfl⟩ := mem_cycles_iff.1 hgroup
    obtain ⟨hmn, hnm⟩ := mem_circle_iff.1 hn
    exact hnm.trans hmn

/-- The cycles depend on which links there are, not on their order or on how often each was added. -/
theorem cycles_congr {g' : Inheritance} (h : ∀ edge, edge ∈ g.edges ↔ edge ∈ g'.edges) : g.cycles = g'.cycles := by
  have hlinks : g.Links = g'.Links := funext fun a => funext fun b => propext (h (a, b))
  refine eq_of_increasing increasing_cycles increasing_cycles fun group => ?_
  rw [mem_cycles_iff_increasing, mem_cycles_iff_increasing, hlinks]

/-! ## Strongly connected components -/

/-- The strongly connected components of a graph, in whatever order: every name of the graph is in one of them and in no
other, and with a name those are in it that links lead to and back from. -/
structure IsComponents (g : Inheritance) (cs : List (List Name)) : Prop where
  nodup : cs.flatten.Nodup
  mem_iff : ∀ n, n ∈ cs.flatten ↔ n ∈ g.nodes
  ne_nil : ∀ c ∈ cs, c ≠ []
  connected : ∀ c ∈ cs, ∀ n ∈ c, ∀ m, m ∈ c ↔ ReflTransGen g.Links n m ∧ ReflTransGen g.Links m n

/-- Whether a component is a cycle: it has several names, or the one that it has is linked to itself. -/
def isCycle (g : Inheritance) (c : List Name) : Bool := 1 < c.length || c.head?.any fun n => (n, n) ∈ g.edges

/-- The cycles among components: each sorted by name, and all as lists of names. -/
def cyclesIn (g : Inheritance) (cs : List (List Name)) : List (List Name) :=
  ((cs.filter g.isCycle).map (·.mergeSort Name.le)).mergeSort fun xs ys => (List.compareLex Name.cmp xs ys).isLE

/-- The names that links lead to from a name and back, and the name itself. -/
def component (g : Inheritance) (n : Name) : List Name :=
  g.nodes.filter fun m => m = n || (decide (m ∈ g.ancestors n) && decide (n ∈ g.ancestors m))

theorem mem_component_iff (hn : n ∈ g.nodes) :
    m ∈ g.component n ↔ ReflTransGen g.Links n m ∧ ReflTransGen g.Links m n := by
  simp only [component, List.mem_filter, Bool.or_eq_true, Bool.and_eq_true, decide_eq_true_eq, mem_ancestors_iff]
  constructor
  · rintro ⟨-, rfl | ⟨hnm, hmn⟩⟩
    · exact ⟨.refl, .refl⟩
    · exact ⟨hnm.to_reflTransGen, hmn.to_reflTransGen⟩
  · rintro ⟨hnm, hmn⟩
    by_cases heq : m = n
    · exact ⟨heq ▸ hn, .inl heq⟩
    · have hnm := (reflTransGen_iff_eq_or_transGen.1 hnm).resolve_left heq
      have hmn := (reflTransGen_iff_eq_or_transGen.1 hmn).resolve_left (Ne.symm heq)
      exact ⟨mem_nodes_of_reaches hmn, .inr ⟨hnm, hmn⟩⟩

theorem mem_nodes_of_mem_component (h : m ∈ g.component n) : m ∈ g.nodes := (List.mem_filter.1 h).1

/-- Components that share a name hold the same names, in the order of the graph. -/
theorem component_eq_of_mem (hn : n ∈ g.nodes) (hm : m ∈ g.component n) : g.component m = g.component n := by
  obtain ⟨hnm, hmn⟩ := (mem_component_iff hn).1 hm
  have hiff : ∀ x, x ∈ g.component m ↔ x ∈ g.component n := by
    intro x
    rw [mem_component_iff (mem_nodes_of_mem_component hm), mem_component_iff hn]
    exact ⟨fun ⟨hmx, hxm⟩ => ⟨hnm.trans hmx, hxm.trans hmn⟩, fun ⟨hnx, hxn⟩ => ⟨hmn.trans hnx, hxn.trans hnm⟩⟩
  refine List.filter_congr fun x hx => Bool.eq_iff_iff.2 ?_
  have hx' := hiff x
  rw [component, component, List.mem_filter, List.mem_filter] at hx'
  simpa [hx] using hx'

/-- Every graph has components. -/
theorem exists_isComponents (g : Inheritance) : ∃ cs, g.IsComponents cs := by
  have hmem : ∀ c, c ∈ (g.nodes.map g.component).eraseDups ↔ ∃ n ∈ g.nodes, g.component n = c := by simp
  have hself : ∀ n ∈ g.nodes, n ∈ g.component n := fun n hn => (mem_component_iff hn).2 ⟨.refl, .refl⟩
  refine ⟨(g.nodes.map g.component).eraseDups, ?_, ?_, ?_, ?_⟩
  · refine List.nodup_flatten.2 ⟨fun c hc => ?_, (nodup_eraseDups _).imp_of_mem fun {c c'} hc hc' hne x hx hx' => ?_⟩
    · obtain ⟨n, -, rfl⟩ := (hmem c).1 hc
      exact nodup_nodes.filter _
    · obtain ⟨n, hn, rfl⟩ := (hmem c).1 hc
      obtain ⟨m, hm, rfl⟩ := (hmem c').1 hc'
      exact hne ((component_eq_of_mem hn hx).symm.trans (component_eq_of_mem hm hx'))
  · intro n
    rw [List.mem_flatten]
    constructor
    · rintro ⟨c, hc, hn⟩
      obtain ⟨m, -, rfl⟩ := (hmem c).1 hc
      exact mem_nodes_of_mem_component hn
    · exact fun hn => ⟨g.component n, (hmem _).2 ⟨n, hn, rfl⟩, hself n hn⟩
  · intro c hc
    obtain ⟨n, hn, rfl⟩ := (hmem c).1 hc
    exact List.ne_nil_of_mem (hself n hn)
  · intro c hc n hn m
    obtain ⟨x, hx, rfl⟩ := (hmem c).1 hc
    rw [← component_eq_of_mem hx hn, mem_component_iff (mem_nodes_of_mem_component hn)]

namespace IsComponents

variable (h : g.IsComponents cs) {c : List Name}

include h

/-- A component is a cycle iff links lead from any of its names back to it. -/
theorem isCycle_iff (hc : c ∈ cs) (hn : n ∈ c) : g.isCycle c = true ↔ TransGen g.Links n n := by
  have hconnected := h.connected c hc
  cases c with
  | nil => cases hn
  | cons x xs =>
    simp only [isCycle, Bool.or_eq_true, decide_eq_true_eq, List.head?_cons, Option.any_some]
    obtain ⟨hnx, hxn⟩ := (hconnected n hn x).1 List.mem_cons_self
    constructor
    · rintro (hlength | hself)
      · cases xs with
        | nil => simp at hlength
        | cons y ys =>
          have hxy : x ≠ y := by
            have hnodup := (List.nodup_flatten.1 h.nodup).1 _ hc
            rintro rfl
            simp at hnodup
          obtain ⟨hreach, hback⟩ := (hconnected x List.mem_cons_self y).1 (by simp)
          have hreach := (reflTransGen_iff_eq_or_transGen.1 hreach).resolve_left (Ne.symm hxy)
          exact .trans_right hnx (.trans_left (.trans_left hreach hback) hxn)
      · exact .trans_right hnx (.head' hself hxn)
    · intro hcycle
      by_cases hlength : 1 < (x :: xs).length
      · exact .inl hlength
      · have hxs : xs = [] := List.length_eq_zero_iff.1 (by simpa using hlength)
        subst hxs
        obtain rfl := List.mem_singleton.1 hn
        obtain ⟨y, hny, hback⟩ := TransGen.head'_iff.1 hcycle
        have hy : y = n := List.mem_singleton.1 ((hconnected n hn y).2 ⟨.single hny, hback⟩)
        exact .inr (hy ▸ hny)

/-- The sorted component of a name on a cycle is its circle. -/
theorem mergeSort_eq_circle (hc : c ∈ cs) (hn : n ∈ c) (hcycle : TransGen g.Links n n) :
    c.mergeSort Name.le = g.circle n := by
  have hnodup : c.Nodup := (List.nodup_flatten.1 h.nodup).1 c hc
  refine eq_of_increasing (increasing_mergeSort Name.le_eq hnodup) increasing_circle fun m => ?_
  rw [List.mem_mergeSort, h.connected c hc n hn, mem_circle_iff]
  refine ⟨fun ⟨hnm, hmn⟩ => ⟨.trans_left hcycle hnm, .trans_right hmn hcycle⟩,
    fun ⟨hnm, hmn⟩ => ⟨hnm.to_reflTransGen, hmn.to_reflTransGen⟩⟩

/-- The components that are cycles are the cycles, whatever order the components come in. -/
theorem cyclesIn_eq : g.cyclesIn cs = g.cycles := by
  have hnodup : ((cs.filter g.isCycle).map (·.mergeSort Name.le)).Nodup := by
    refine List.pairwise_map.2 (((List.nodup_flatten.1 h.nodup).2.filter _).imp_of_mem fun {c c'} hc _ hdisjoint heq => ?_)
    obtain ⟨n, hn⟩ := List.exists_mem_of_ne_nil c (h.ne_nil c (List.mem_filter.1 hc).1)
    exact hdisjoint hn (List.mem_mergeSort.1 (heq ▸ List.mem_mergeSort.2 hn))
  refine eq_of_increasing (increasing_mergeSort (fun _ _ => rfl) hnodup) increasing_cycles fun group => ?_
  simp only [cyclesIn, List.mem_mergeSort, List.mem_map, List.mem_filter, mem_cycles_iff]
  constructor
  · rintro ⟨c, ⟨hc, hcycle⟩, rfl⟩
    obtain ⟨n, hn⟩ := List.exists_mem_of_ne_nil c (h.ne_nil c hc)
    have hcycle := (h.isCycle_iff hc hn).1 hcycle
    exact ⟨n, hcycle, (h.mergeSort_eq_circle hc hn hcycle).symm⟩
  · rintro ⟨n, hcycle, rfl⟩
    obtain ⟨c, hc, hn⟩ := List.mem_flatten.1 ((h.mem_iff n).2 (mem_nodes_of_reaches hcycle))
    exact ⟨c, ⟨hc, (h.isCycle_iff hc hn).2 hcycle⟩, h.mergeSort_eq_circle hc hn hcycle⟩

end IsComponents

end Inheritance

end ClassTree
