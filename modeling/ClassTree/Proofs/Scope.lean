import Mathlib.Data.List.Nodup
import ClassTree.ClassDef
import ClassTree.Scope

/-!
# The variables of a scope as a list

`Scope.Shows s ls`: the variables that the scope `s` shows are those of the list `ls`, the latest first, each with a slot
of its own. There is only one such list (`Scope.Shows.unique`). Statements put the variables that they declare before
those of the list, and the end of a block takes its variables away again (`Stmt.exists_adds_after`).
-/

namespace ClassTree

/-! ## Lookups in lists of variables -/

theorem find?_name {ls : List Local} (hnodup : (ls.map Local.name).Nodup) {v : Local} (hv : v ∈ ls) :
    ls.find? (·.name = v.name) = some v := by
  induction ls with
  | nil => cases hv
  | cons a ls ih =>
    rw [List.map_cons, List.nodup_cons] at hnodup
    rcases List.mem_cons.1 hv with rfl | hv
    · simp
    · have hne : a.name ≠ v.name := fun heq => hnodup.1 (heq ▸ List.mem_map_of_mem hv)
      rw [List.find?_cons_of_neg (by simpa using hne)]
      exact ih hnodup.2 hv

namespace Scope

/-- The variables that the scope shows are those of a list, the latest first. -/
structure Shows (s : Scope) (ls : List Local) : Prop where
  lookup : ∀ x, s.lookup? x = ls.find? (·.name = x)
  names : (ls.map Local.name).Nodup
  slots : ls.Pairwise fun a b => b.slot.toNat < a.slot.toNat
  slot_lt : ∀ v ∈ ls, v.slot.toNat < s.nextSlot
  depth_le : ∀ v ∈ ls, v.depth ≤ s.depth

variable {s s' : Scope} {ls news : List Local}

theorem Shows.mem_iff (h : s.Shows ls) {v : Local} : v ∈ ls ↔ s.lookup? v.name = some v := by
  rw [h.lookup]
  exact ⟨find?_name h.names, List.mem_of_find?_eq_some⟩

theorem Shows.mem_of_lookup? (h : s.Shows ls) {x : String} {v : Local} (hv : s.lookup? x = some v) :
    v ∈ ls ∧ v.name = x := by
  rw [h.lookup] at hv
  exact ⟨List.mem_of_find?_eq_some hv, by simpa using List.find?_some hv⟩

/-- Variables with the same slot are the same. -/
theorem Shows.eq_of_slot (h : s.Shows ls) {v w : Local} (hv : v ∈ ls) (hw : w ∈ ls)
    (heq : v.slot.toNat = w.slot.toNat) : v = w := by
  have hnodup : (ls.map fun v => v.slot.toNat).Nodup := List.pairwise_map.2 (h.slots.imp fun hlt => by omega)
  exact List.inj_on_of_nodup_map hnodup hv hw heq

/-- A scope shows one list only: its slots put it in order. -/
theorem Shows.unique {ls' : List Local} (h : s.Shows ls) (h' : s.Shows ls') : ls = ls' := by
  have hperm : ls.Perm ls' :=
    (List.perm_ext_iff_of_nodup (List.Nodup.of_map _ h.names) (List.Nodup.of_map _ h'.names)).2 fun v => h.mem_iff.trans h'.mem_iff.symm
  refine hperm.eq_of_pairwise (fun a b _ _ hab hba => ?_) h.slots h'.slots
  omega

theorem shows_ofStatic : ofStatic.Shows [] :=
  ⟨fun x => by simp [lookup?, ofStatic], by simp, by simp, by simp, by simp⟩

theorem shows_ofInstance : ofInstance.Shows [] :=
  ⟨fun x => by simp [lookup?, ofInstance], by simp, by simp, by simp, by simp⟩

theorem Shows.enter (h : s.Shows ls) : s.enter.Shows ls :=
  ⟨h.lookup, h.names, h.slots, h.slot_lt, fun v hv => Nat.le_succ_of_le (h.depth_le v hv)⟩

/-- What a declaration that succeeds does. -/
theorem declare_eq_ok {x : String} {ty : Ty} {slot : UInt16} (h : s.declare x ty = (.ok slot, s')) :
    s.lookup? x = none ∧ slot.toNat = s.nextSlot ∧
      s' = { s with visible := s.visible.insert x ⟨x, ty, slot, s.depth⟩, nextSlot := s.nextSlot + 1 } := by
  unfold declare at h
  split at h
  · cases h
  · rename_i hnew
    split at h
    · rename_i hlt
      cases h
      refine ⟨?_, UInt16.toNat_ofNat_of_lt hlt, rfl⟩
      rw [Std.HashMap.contains_eq_isSome_getElem?] at hnew
      simpa [lookup?] using hnew
    · cases h

theorem declare_eq_error {x : String} {ty : Ty} {e : DeclareError} (h : s.declare x ty = (.error e, s')) : s' = s := by
  unfold declare at h
  split at h
  · cases h; rfl
  · split at h
    · cases h
    · cases h; rfl

theorem Shows.declare (h : s.Shows ls) {x : String} {ty : Ty} {slot : UInt16}
    (hd : s.declare x ty = (.ok slot, s')) : s'.Shows (⟨x, ty, slot, s.depth⟩ :: ls) := by
  obtain ⟨hnew, hslot, rfl⟩ := declare_eq_ok hd
  refine ⟨fun y => ?_, ?_, ?_, ?_, ?_⟩
  · by_cases hy : x = y
    · subst hy
      simp [lookup?]
    · rw [List.find?_cons_of_neg (by simpa using hy), ← h.lookup]
      simp [lookup?, Std.HashMap.getElem?_insert, hy]
  · rw [List.map_cons, List.nodup_cons]
    refine ⟨fun hx => ?_, h.names⟩
    obtain ⟨v, hv, hvx⟩ := List.mem_map.1 hx
    have hlookup := h.mem_iff.1 hv
    rw [show v.name = x from hvx, hnew] at hlookup
    cases hlookup
  · exact .cons (fun v hv => by have := h.slot_lt v hv; simp only; omega) h.slots
  · intro v hv
    rcases List.mem_cons.1 hv with rfl | hv
    · simp only; omega
    · have := h.slot_lt v hv
      simp only; omega
  · intro v hv
    rcases List.mem_cons.1 hv with rfl | hv
    · exact Nat.le_refl _
    · exact h.depth_le v hv

/-- The end of a block takes away the variables that were declared in it. -/
theorem Shows.pop (h : s.Shows (news ++ ls)) (hnews : ∀ v ∈ news, v.depth = s.depth)
    (hls : ∀ v ∈ ls, v.depth < s.depth) : s.pop.Shows ls := by
  have hsub : ls.Sublist (news ++ ls) := List.sublist_append_right news ls
  refine ⟨fun x => ?_, h.names.sublist (hsub.map _), h.slots.sublist hsub, fun v hv => h.slot_lt v (hsub.subset hv),
    fun v hv => by have := hls v hv; simp only [Scope.pop]; omega⟩
  have hpop : s.pop.lookup? x = (s.lookup? x).filter (·.depth < s.depth) := by
    simp only [Scope.pop, lookup?, Std.HashMap.getElem?_filter']
  rw [hpop, h.lookup, List.find?_append]
  cases hx : news.find? (·.name = x) with
  | some v =>
    have hv := List.mem_of_find?_eq_some hx
    have hvx : v.name = x := by simpa using List.find?_some hx
    have hnone : ls.find? (·.name = x) = none := by
      refine List.find?_eq_none.2 fun w hw hwx => ?_
      have hdisjoint := (List.nodup_append.1 (by simpa using h.names)).2.2
      exact hdisjoint v.name (List.mem_map_of_mem hv) w.name (List.mem_map_of_mem hw)
        (by rw [hvx]; exact (of_decide_eq_true hwx).symm)
    rw [hnone]
    simp [Option.filter, hnews v hv]
  | none =>
    cases hy : ls.find? (·.name = x) with
    | none => rfl
    | some v => simp [Option.filter, hls v (List.mem_of_find?_eq_some hy)]

/-- From the first scope to the second the variables of a list were declared in the innermost block. -/
structure Adds (s : Scope) (news : List Local) (s' : Scope) : Prop where
  depth : s'.depth = s.depth
  nextSlot : s.nextSlot ≤ s'.nextSlot
  innermost : ∀ v ∈ news, v.depth = s.depth
  visible : ∀ ls, s.Shows ls → s'.Shows (news ++ ls)

theorem Adds.refl (s : Scope) : s.Adds [] s := ⟨rfl, Nat.le_refl _, by simp, fun _ h => h⟩

theorem Adds.trans {t : Scope} {more : List Local} (h : s.Adds news s') (h' : s'.Adds more t) :
    s.Adds (more ++ news) t := by
  refine ⟨h'.depth.trans h.depth, Nat.le_trans h.nextSlot h'.nextSlot, fun v hv => ?_, fun ls hls => ?_⟩
  · rcases List.mem_append.1 hv with hv | hv
    · rw [h'.innermost v hv, h.depth]
    · exact h.innermost v hv
  · rw [List.append_assoc]
    exact h'.visible _ (h.visible ls hls)

theorem Adds.declare {x : String} {ty : Ty} {slot : UInt16} (h : s.declare x ty = (.ok slot, s')) :
    s.Adds [⟨x, ty, slot, s.depth⟩] s' := by
  refine ⟨?_, ?_, by simp, fun ls hls => hls.declare h⟩
  · rw [(declare_eq_ok h).2.2]
  · rw [(declare_eq_ok h).2.2]
    exact Nat.le_succ _

/-- A block adds nothing. -/
theorem Adds.pop (h : s.enter.Adds news s') : s.Adds [] s'.pop := by
  have hdepth : s'.depth = s.depth + 1 := h.depth
  refine ⟨?_, h.nextSlot, by simp, fun ls hls => ?_⟩
  · simp only [Scope.pop, hdepth, Nat.add_sub_cancel]
  · refine (h.visible ls hls.enter).pop (fun v hv => ?_) fun v hv => ?_
    · rw [h.innermost v hv, h.depth]
    · have := hls.depth_le v hv
      omega

end Scope

/-! ## Statements -/

mutual

/-- The variables that are visible after a statement. -/
def Stmt.after : Stmt → Scope → Scope
  | .block stmts, s => (afterAll stmts s.enter).pop
  | .decl name ty _, s => (s.declare name ty).2
  | .expr _, s | .ret _, s | .superCall _, s => s
  | .cond _ t none, s => (t.after s.enter).pop
  | .cond _ t (some e), s => (e.after (t.after s.enter).pop.enter).pop
  | .loop _ body, s => (body.after s.enter).pop

def afterAll : List Stmt → Scope → Scope
  | [], s => s
  | x :: rest, s => afterAll rest (x.after s)

end

theorem Scope.exists_adds_declare (s : Scope) (x : String) (ty : Ty) : ∃ news, s.Adds news (s.declare x ty).2 := by
  match h : s.declare x ty with
  | (.ok slot, s') => exact ⟨_, .declare h⟩
  | (.error e, s') => exact ⟨[], declare_eq_error h ▸ .refl _⟩

mutual

/-- Statements add variables to the innermost block alone. -/
theorem Stmt.exists_adds_after : ∀ (x : Stmt) (s : Scope), ∃ news, s.Adds news (x.after s)
  | .block stmts, s => by
    obtain ⟨news, h⟩ := exists_adds_afterAll stmts s.enter
    exact ⟨[], by rw [Stmt.after]; exact h.pop⟩
  | .decl name ty _, s => by
    rw [Stmt.after]
    exact s.exists_adds_declare name ty
  | .expr _, s => ⟨[], by rw [Stmt.after]; exact .refl s⟩
  | .ret _, s => ⟨[], by rw [Stmt.after]; exact .refl s⟩
  | .superCall _, s => ⟨[], by rw [Stmt.after]; exact .refl s⟩
  | .cond _ t none, s => by
    obtain ⟨news, h⟩ := t.exists_adds_after s.enter
    exact ⟨[], by rw [Stmt.after]; exact h.pop⟩
  | .cond _ t (some e), s => by
    obtain ⟨news, h⟩ := t.exists_adds_after s.enter
    obtain ⟨news', h'⟩ := e.exists_adds_after (t.after s.enter).pop.enter
    exact ⟨[], by rw [Stmt.after]; exact h.pop.trans h'.pop⟩
  | .loop _ body, s => by
    obtain ⟨news, h⟩ := body.exists_adds_after s.enter
    exact ⟨[], by rw [Stmt.after]; exact h.pop⟩

theorem exists_adds_afterAll : ∀ (xs : List Stmt) (s : Scope), ∃ news, s.Adds news (afterAll xs s)
  | [], s => ⟨[], by rw [afterAll]; exact .refl s⟩
  | x :: rest, s => by
    obtain ⟨news, h⟩ := x.exists_adds_after s
    obtain ⟨news', h'⟩ := exists_adds_afterAll rest (x.after s)
    exact ⟨news' ++ news, by rw [afterAll]; exact h.trans h'⟩

end

/-! ## Parameters -/

/-- A variable can be declared. -/
def Scope.Declares (s : Scope) (x : String) (ty : Ty) (slot : UInt16) : Prop := (s.declare x ty).1 = .ok slot

/-- The variables that are visible after the parameters of a list were declared. -/
def afterParams (params : List Param) (s : Scope) : Scope := params.foldl (fun s p => (s.declare p.name p.ty).2) s

/-- The parameters of a list can be declared one after the other. -/
def Scope.DeclaresAll : List Param → Scope → Prop
  | [], _ => True
  | p :: rest, s => (∃ slot, s.Declares p.name p.ty slot) ∧ DeclaresAll rest (s.declare p.name p.ty).2

end ClassTree
