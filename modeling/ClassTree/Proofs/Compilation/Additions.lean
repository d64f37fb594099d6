import Mathlib.Data.List.Nodup
import ClassTree.Proofs.Compilation.Stages

/-!
# Adding class trees

A class tree is taken as a whole or not at all: all of its classes are looked at before the first of them is entered. What is
entered are the classes in the order of `ClassDef.flatten`, each by itself and with a module of its own.

* `ClassDef.split_eq_ok`: a tree can be split iff all of its classes are well placed, and gives its classes in that order.
* `Compilation.Called.additions`: whatever calls a compilation has seen, failed ones among them, an addition that fails changes
  nothing, one that succeeds appends the modules of the tree, and the index tells where the module of each class stands. It
  says, too, which trees can be added.
-/

namespace ClassTree

/-! ## Trees and their classes -/

namespace ClassDef

/-- The class without the classes nested in it. -/
def alone (d : ClassDef) : ClassDef := { d with nested := [] }

/-- A class that names an enclosing class has the name of a class nested in that one. -/
def WellNamed (d : ClassDef) : Prop := ∀ e, d.enclosing = some e → e.nested d.name.simpleName = .ok d.name

/-- A class is well named, and the classes nested in it name it as their enclosing class. -/
structure WellPlaced (d : ClassDef) : Prop where
  named : d.WellNamed
  encloses : ∀ x ∈ d.nested, x.enclosing = some d.name

theorem checkOwnName_eq_ok {d : ClassDef} {u : Unit} : d.checkOwnName = .ok u ↔ d.WellNamed := by
  rw [checkOwnName, WellNamed]
  cases d.enclosing with
  | none => simp
  | some outer =>
    rw [bind_eq_ok]
    constructor
    · rintro ⟨expected, hexpected, h⟩ e ⟨⟩
      split at h
      · rename_i heq
        rw [hexpected, heq]
      · cases h
    · intro h
      exact ⟨d.name, h outer rfl, if_pos rfl⟩

theorem checkPlace_eq_ok {outer : Name} {d : ClassDef} {u : Unit} : d.checkPlace outer = .ok u ↔ d.enclosing = some outer := by
  rw [checkPlace]
  split
  · rename_i h
    exact iff_of_true rfl h
  · rename_i h
    refine iff_of_false (fun hok => ?_) h
    obtain ⟨_, -, hok⟩ := bind_eq_ok.1 hok
    cases hok

mutual

/-- A tree can be split iff all of its classes are well placed, and it is split into these, each of them alone. -/
theorem split_eq_ok : ∀ {d : ClassDef} {classes : List ClassDef},
    d.split = .ok classes ↔ (∀ x ∈ d.flatten, x.WellPlaced) ∧ classes = d.flatten.map alone
  | ⟨name, modifiers, superclass, members, enclosing, nested⟩, classes => by
    rw [split, flatten]
    simp only [bind_eq_ok, pure_eq_ok, checkOwnName_eq_ok, splitAll_eq_ok, List.forall_mem_cons, List.map_cons]
    constructor
    · rintro ⟨-, hnamed, rest, ⟨hencloses, hall, rfl⟩, rfl⟩
      exact ⟨⟨⟨hnamed, hencloses⟩, hall⟩, rfl⟩
    · rintro ⟨⟨⟨hnamed, hencloses⟩, hall⟩, rfl⟩
      exact ⟨(), hnamed, _, ⟨hencloses, hall, rfl⟩, rfl⟩

theorem splitAll_eq_ok : ∀ {outer : Name} {ds classes : List ClassDef}, splitAll outer ds = .ok classes ↔
    (∀ d ∈ ds, d.enclosing = some outer) ∧ (∀ x ∈ flattenAll ds, x.WellPlaced) ∧ classes = (flattenAll ds).map alone
  | _, [], classes => by simp [splitAll, flattenAll, eq_comm]
  | outer, d :: ds, classes => by
    rw [splitAll, flattenAll]
    simp only [bind_eq_ok, pure_eq_ok, checkPlace_eq_ok, split_eq_ok, splitAll_eq_ok, List.forall_mem_cons,
      List.forall_mem_append, List.map_append]
    constructor
    · rintro ⟨-, hd, first, ⟨hfirst, rfl⟩, others, ⟨hds, hothers, rfl⟩, rfl⟩
      exact ⟨⟨hd, hds⟩, ⟨hfirst, hothers⟩, rfl⟩
    · rintro ⟨⟨hd, hds⟩, ⟨hfirst, hothers⟩, rfl⟩
      exact ⟨(), hd, _, ⟨hfirst, rfl⟩, _, ⟨hds, hothers, rfl⟩, rfl⟩

end

end ClassDef

/-! ## Calls -/

theorem Module.syntheticName_injective : Function.Injective Module.syntheticName := by
  intro a b h
  have htexts := congrArg String.toList h
  simp only [syntheticName, String.toList_append, List.append_assoc, List.append_cancel_left_eq,
    List.append_cancel_right_eq] at htexts
  exact Name.text_inj.1 (String.toList_inj.1 htexts)

namespace Compilation

/-- The compilation that an addition leaves behind, whether it succeeds or fails. -/
def afterAdding (c : Compilation) (d : ClassDef) : Compilation :=
  match addClass d c with
  | .ok _ c' | .error _ c' => c'

/-- The compilations that calls lead to, whether these succeed or fail; modules have the names that they have without a
source. -/
inductive Called : Compilation → Prop
  | start (config : Config) : Called { config }
  | addClass {c : Compilation} (d : ClassDef) : Called c → Called (c.afterAdding d)
  | compile {c : Compilation} (upTo : Phase) : Called c → Called (c.compile upTo).2

variable {c c' : Compilation} {d : ClassDef}

theorem addClass_eq_error {e : ConstructionError} (h : addClass d c = .error e c') : c' = c := by
  rw [addClass_eq] at h
  split at h
  · cases h
  · cases h
    rfl

theorem addClass_eq_ok (h : addClass d c = .ok () c') : c.add d = .ok c' := by rw [add, h]

/-- The modules of the tree come after those that were there; besides these only the index is changed. -/
theorem add_eq (h : c.add d = .ok c') : (∀ x ∈ d.flatten, x.WellPlaced) ∧ ∃ index, c' =
    { c with modules := c.modules ++ d.flatten.map fun x => { name := c.moduleName x.name, cls := x.alone }, index } := by
  obtain ⟨classes, hvetted, rfl⟩ := add_eq_ok h
  obtain ⟨hwell, rfl⟩ := ClassDef.split_eq_ok.1 (vetted_eq_ok.1 hvetted).2.1
  obtain ⟨index, heq⟩ := foldl_enter (d.flatten.map ClassDef.alone) c
  rw [List.map_map] at heq
  exact ⟨hwell, index, heq⟩

/-- A tree can be added iff no phase was run, its classes are well placed, and their names are new: those of no host class, of
no class with a module and of no other class of the tree. -/
theorem Indexed.addClass_isOk_iff (h : c.Indexed) : (∃ c', addClass d c = .ok () c') ↔
    c.completed = none ∧ (∀ x ∈ d.flatten, x.WellPlaced) ∧ (d.flatten.map ClassDef.name).Nodup ∧
      ∀ x ∈ d.flatten, x.name.text ∉ c.modules.map Module.className ∧ HostClass.ofName? x.name = none := by
  have hvetted : (∃ c', addClass d c = .ok () c') ↔ ∃ classes, c.vetted d = .ok classes := by
    rw [addClass_eq]
    cases c.vetted d <;> simp
  have halone : (d.flatten.map ClassDef.alone).map ClassDef.name = d.flatten.map ClassDef.name := List.map_map
  simp only [hvetted, vetted_eq_ok, ClassDef.split_eq_ok, checkNew_eq_ok, ← h.mem_index_iff]
  constructor
  · rintro ⟨_, hopen, ⟨hwell, rfl⟩, hnodup, hnew⟩
    exact ⟨hopen, hwell, halone ▸ hnodup, fun x hx => hnew x.alone (List.mem_map_of_mem hx)⟩
  · rintro ⟨hopen, hwell, hnodup, hnew⟩
    refine ⟨_, hopen, ⟨hwell, rfl⟩, halone ▸ hnodup, fun y hy => ?_⟩
    obtain ⟨x, hx, rfl⟩ := List.mem_map.1 hy
    exact hnew x hx

/-- Every class is alone in its module, and is named as it should be. -/
theorem Reached.wellNamed (h : Reached c) : ∀ d ∈ c.defs, d.nested = [] ∧ d.WellNamed := by
  induction h with
  | start config moduleName => exact nofun
  | add _ hadd ih =>
    obtain ⟨hwell, index, rfl⟩ := add_eq hadd
    intro d hd
    simp only [defs, List.map_append, List.map_map, List.mem_append] at hd
    rcases hd with hd | hd
    · exact ih d hd
    · obtain ⟨x, hx, rfl⟩ := List.mem_map.1 hd
      exact ⟨rfl, (hwell x hx).named⟩
  | compile upTo _ ih =>
    rw [(carries_compile _ upTo).defs]
    exact ih

/-- No class has the name of another or of a host class. -/
theorem Reached.names (h : Reached c) :
    (c.defs.map ClassDef.name).Nodup ∧ ∀ d ∈ c.defs, HostClass.ofName? d.name = none := by
  obtain ⟨c₀, hc₀, hcarries, -⟩ := h.compile_eq
  rw [hcarries.defs]
  exact hc₀.names

theorem Called.reached (h : Called c) : Reached c := by
  induction h with
  | start config => exact .start config _
  | @addClass c d _ ih =>
    rw [afterAdding]
    cases hadd : Compilation.addClass d c with
    | ok _ c' => exact ih.add (addClass_eq_ok hadd)
    | error e c' =>
      rw [addClass_eq_error hadd]
      exact ih
  | compile upTo _ ih => exact ih.compile upTo

/-- Modules are named after their classes. -/
theorem Called.moduleNames (h : Called c) : c.moduleName = Module.syntheticName ∧
    c.modules.map Module.name = c.defs.map fun d => Module.syntheticName d.name := by
  induction h with
  | start config => exact ⟨rfl, rfl⟩
  | @addClass c d _ ih =>
    rw [afterAdding]
    cases hadd : Compilation.addClass d c with
    | ok _ c' =>
      obtain ⟨-, index, rfl⟩ := add_eq (addClass_eq_ok hadd)
      refine ⟨ih.1, ?_⟩
      simp only [defs, List.map_append, List.map_map] at ih ⊢
      rw [ih.2, ih.1]
      rfl
    | error e c' =>
      rw [addClass_eq_error hadd]
      exact ih
  | @compile c upTo _ ih =>
    have hcarries := c.carries_compile upTo
    rw [hcarries.moduleName, hcarries.names, hcarries.defs]
    exact ih

/-- Whatever calls a compilation has seen: an addition that fails leaves it as it was, and one that succeeds appends a module
for each class of the tree, in the order in which `ClassDef.flatten` gives them, and changes nothing else but the index. It
succeeds iff no phase was run, the classes are well placed in the tree, and their names are new. The modules have names of
their own, as have their classes, none of which has the name of a host class; the index tells the place of the module of each
class, and of nothing else; and every class is alone in its module, under the name that its enclosing class makes it have. -/
theorem Called.additions (h : Called c) :
    (∀ d e c', Compilation.addClass d c = .error e c' → c' = c) ∧
      (∀ d c', Compilation.addClass d c = .ok () c' → c'.Indexed ∧ ∃ index, c' =
        { c with
          modules := c.modules ++ d.flatten.map fun x => { name := Module.syntheticName x.name, cls := { x with nested := [] } }
          index }) ∧
      (∀ d, (∃ c', Compilation.addClass d c = .ok () c') ↔
        c.completed = none ∧ (∀ x ∈ d.flatten, x.WellPlaced) ∧ (d.flatten.map ClassDef.name).Nodup ∧
          ∀ x ∈ d.flatten, x.name.text ∉ c.modules.map Module.className ∧ HostClass.ofName? x.name = none) ∧
      (c.modules.map Module.name).Nodup ∧ (c.modules.map Module.className).Nodup ∧
      (∀ name i, c.index.lookup name = some i ↔ ∃ m, c.modules[i]? = some m ∧ m.className = name) ∧
      ∀ m ∈ c.modules, HostClass.ofName? m.cls.name = none ∧ m.cls.nested = [] ∧
        ∀ e, m.cls.enclosing = some e → e.nested m.cls.name.simpleName = .ok m.cls.name := by
  have hreached := h.reached
  obtain ⟨hdistinct, hhost⟩ := hreached.names
  obtain ⟨hmoduleName, hnames⟩ := h.moduleNames
  refine ⟨fun d e c' => addClass_eq_error, fun d c' hok => ?_, fun d => hreached.indexed.addClass_isOk_iff, ?_,
    hreached.indexed.nodup, fun name i => ?_, fun m hm => ?_⟩
  · have hadd := addClass_eq_ok hok
    obtain ⟨-, index, heq⟩ := add_eq hadd
    refine ⟨hreached.indexed.add hadd, index, heq.trans ?_⟩
    rw [hmoduleName]
    rfl
  · have hinjective := List.Nodup.map Module.syntheticName_injective hdistinct
    rw [List.map_map] at hinjective
    exact hnames ▸ hinjective
  · refine (hreached.indexed name i).trans ?_
    rw [List.getElem?_map, Option.map_eq_some_iff]
  · have hd : m.cls ∈ c.defs := List.mem_map_of_mem hm
    exact ⟨hhost _ hd, hreached.wellNamed _ hd⟩

end Compilation

/-! ## An example -/

namespace Nest

def outerName : Name := .ofPath ["A"] (Eq.refl true)

def innerName : Name := .ofPath ["A", "B"] (Eq.refl true)

def inner : ClassDef := { name := innerName, enclosing := some outerName }

/-- A class with another one nested in it. -/
def outer : ClassDef := { name := outerName, nested := [inner] }

def compilation : Compilation := ({} : Compilation).afterAdding outer

theorem called : compilation.Called := .addClass outer (.start {})

end Nest

/-- Both classes of a tree have modules, and the nested one cannot be added once more. -/
theorem Compilation.Called.additions_nest :
    Nest.compilation.Called ∧ Nest.compilation.index = [("A$B", 1), ("A", 0)] ∧
      (Nest.compilation.modules.map Module.name).Nodup ∧
      (∃ index, Nest.compilation =
        { modules := [
            { name := "<synthetic:A>", cls := { name := Nest.outerName } },
            { name := "<synthetic:A$B>", cls := Nest.inner }]
          index }) ∧
      ∃ c', Compilation.addClass Nest.inner Nest.compilation = .error (.duplicateClass "A$B") c' ∧ c' = Nest.compilation := by
  obtain ⟨-, hok, -⟩ := Compilation.Called.additions (.start {})
  obtain ⟨-, index, hadded⟩ := hok Nest.outer Nest.compilation rfl
  obtain ⟨herror, -, -, hnames, -⟩ := Compilation.Called.additions Nest.called
  have hagain : Compilation.addClass Nest.inner Nest.compilation = .error (.duplicateClass "A$B") Nest.compilation := rfl
  exact ⟨Nest.called, rfl, hnames, ⟨index, hadded⟩, _, hagain, herror _ _ _ hagain⟩

end ClassTree
