import ClassTree.Proofs.Scope

/-!
# Scopes with more variables

`Scope.Extends s more s'`: the scope `s'` shows the variables that `s` does, with slots of its own, and besides them those of
the list `more`, which were declared outside of all blocks. Statements that declare none of the names in `more` keep this
(`Scope.Extends.declare`, `Scope.Extends.pop`). A declaration that the smaller scope allows can fail in the larger one only
because there are too many variables (`Scope.Extends.declare_cases`).
-/

namespace ClassTree

/-- What is known of a variable besides its name and slot. -/
def Local.view (v : Local) : Ty × Nat := (v.ty, v.depth)

namespace Scope

/-- The second scope shows what the first does, and besides the variables of a list. -/
structure Extends (s : Scope) (more : List Local) (s' : Scope) : Prop where
  depth : s'.depth = s.depth
  lookup : ∀ x, (s'.lookup? x).map Local.view = ((s.lookup? x).or (more.find? (·.name = x))).map Local.view
  outermost : ∀ v ∈ more, v.depth = 0
  new : ∀ v ∈ more, s.lookup? v.name = none

variable {s s' : Scope} {more : List Local}

theorem Extends.refl (s : Scope) : s.Extends [] s := ⟨rfl, fun x => by simp, by simp, by simp⟩

theorem Extends.enter (h : s.Extends more s') : s.enter.Extends more s'.enter :=
  ⟨congrArg (· + 1) h.depth, h.lookup, h.outermost, h.new⟩

theorem lookup?_pop (s : Scope) (x : String) : s.pop.lookup? x = (s.lookup? x).filter (·.depth < s.depth) := by
  simp only [pop, lookup?, Std.HashMap.getElem?_filter']

/-- The end of a block takes the same variables away from both, and none of those that were declared outside. -/
theorem Extends.pop (h : s.Extends more s') (hdepth : 0 < s.depth) : s.pop.Extends more s'.pop := by
  have hfilter : ∀ o : Option Local,
      (o.filter (·.depth < s.depth)).map Local.view = (o.map Local.view).filter (·.2 < s.depth) := by
    intro o
    cases o with
    | none => rfl
    | some v => by_cases hv : v.depth < s.depth <;> simp [Option.filter, Local.view, hv]
  refine ⟨?_, fun x => ?_, h.outermost, fun v hv => ?_⟩
  · simp only [Scope.pop, h.depth]
  · rw [lookup?_pop, lookup?_pop, h.depth, hfilter, h.lookup]
    cases hx : s.lookup? x with
    | none =>
      cases hmore : more.find? (·.name = x) with
      | none => rfl
      | some v =>
        have hv := h.outermost v (List.mem_of_find?_eq_some hmore)
        simp [Local.view, hv, hdepth]
    | some v =>
      have hnone : more.find? (·.name = x) = none := by
        refine List.find?_eq_none.2 fun w hw heq => ?_
        have hnew := h.new w hw
        rw [of_decide_eq_true heq, hx] at hnew
        cases hnew
      rw [hnone, Option.or_none, Option.or_none]
      exact (hfilter (some v)).symm
  · rw [lookup?_pop, h.new v hv]
    rfl

theorem lookup?_declare {x y : String} {ty : Ty} {slot : UInt16} {t : Scope} (h : s.declare x ty = (.ok slot, t)) :
    t.lookup? y = if x = y then some ⟨x, ty, slot, s.depth⟩ else s.lookup? y := by
  obtain ⟨-, -, rfl⟩ := declare_eq_ok h
  by_cases hy : x = y
  · simp [lookup?, hy]
  · simp [lookup?, Std.HashMap.getElem?_insert, hy]

/-- A variable whose name is not among the others is declared in both. -/
theorem Extends.declare (h : s.Extends more s') {x : String} {ty : Ty} {slot slot' : UInt16} {t t' : Scope}
    (hnew : x ∉ more.map Local.name) (hd : s.declare x ty = (.ok slot, t)) (hd' : s'.declare x ty = (.ok slot', t')) :
    t.Extends more t' := by
  have hdepth : t.depth = s.depth := by rw [(declare_eq_ok hd).2.2]
  have hdepth' : t'.depth = s'.depth := by rw [(declare_eq_ok hd').2.2]
  refine ⟨by rw [hdepth, hdepth', h.depth], fun y => ?_, h.outermost, fun v hv => ?_⟩
  · rw [lookup?_declare hd, lookup?_declare hd', h.depth]
    by_cases hy : x = y
    · simp [hy, Local.view]
    · rw [if_neg hy, if_neg hy]
      exact h.lookup y
  · rw [lookup?_declare hd, if_neg]
    · exact h.new v hv
    · intro heq
      exact hnew (heq ▸ List.mem_map_of_mem hv)

/-- Why a declaration is refused. -/
theorem declare_fst (s : Scope) (x : String) (ty : Ty) :
    (s.declare x ty).1 = if (s.lookup? x).isSome then .error .duplicate
      else if s.nextSlot < slotLimit then .ok s.nextSlot.toUInt16 else .error .tooManyLocals := by
  unfold Scope.declare
  rw [Std.HashMap.contains_eq_isSome_getElem?]
  change (if (s.lookup? x).isSome = true then _ else _ : Except DeclareError UInt16 × Scope).1 = _
  split
  · rfl
  · split <;> rfl

/-- A declaration that the smaller scope allows fails in the larger one only if there are too many variables. -/
theorem Extends.declare_cases (h : s.Extends more s') {x : String} {ty : Ty} {slot : UInt16}
    (hnew : x ∉ more.map Local.name) (hd : s.Declares x ty slot) :
    (∃ slot', s'.Declares x ty slot') ∨ (s'.declare x ty).1 = .error .tooManyLocals := by
  have hx : s.lookup? x = none := by
    rw [Declares, declare_fst] at hd
    cases hx : s.lookup? x with
    | none => rfl
    | some v =>
      rw [hx] at hd
      cases hd
  have hmore : more.find? (·.name = x) = none :=
    List.find?_eq_none.2 fun v hv heq => hnew (List.mem_map.2 ⟨v, hv, of_decide_eq_true heq⟩)
  have hx' : s'.lookup? x = none := by
    have hview := h.lookup x
    rw [hx, hmore] at hview
    simpa using hview
  by_cases hslot : s'.nextSlot < slotLimit
  · exact .inl ⟨s'.nextSlot.toUInt16, by simp [Declares, declare_fst, hx', hslot]⟩
  · exact .inr (by simp [declare_fst, hx', hslot])

end Scope

/-! ## Declarations in statements -/

mutual

/-- The names of all variables that are declared in a statement, at any depth. -/
def Stmt.declared : Stmt → List String
  | .block stmts => declaredAll stmts
  | .decl name _ _ => [name]
  | .cond _ t none => t.declared
  | .cond _ t (some e) => t.declared ++ e.declared
  | .loop _ body => body.declared
  | .expr _ | .ret _ | .superCall _ => []

def declaredAll : List Stmt → List String
  | [] => []
  | x :: rest => x.declared ++ declaredAll rest

end

theorem Stmt.depth_after (x : Stmt) (s : Scope) : (x.after s).depth = s.depth := by
  obtain ⟨news, hadds⟩ := x.exists_adds_after s
  exact hadds.depth

theorem depth_afterAll (xs : List Stmt) (s : Scope) : (afterAll xs s).depth = s.depth := by
  obtain ⟨news, hadds⟩ := exists_adds_afterAll xs s
  exact hadds.depth

end ClassTree
