import ClassTree.Proofs.Machine.Steps

/-!
# More fuel changes no run that ends

`Run.Below x y`: the computation `y` does what `x` does, unless `x` runs out of fuel. Computations are put together of others
in such a way that they are below what the same way makes of larger ones, so a run that ends does not depend on how much
fuel is left over, neither for its own steps (`Run.Below.drive`) nor for those of the texts that it asks for
(`Run.Below.frameAt`).

`Run.Ends x m r`: with enough fuel the computation comes to the result `r`.
-/

namespace ClassTree

namespace Run

/-- The second computation does what the first does, unless the first runs out of fuel. -/
def Below {α : Type} (x y : Run α) : Prop := ∀ m, (∃ m', x m = .error .outOfFuel m') ∨ x m = y m

namespace Below

variable {α β : Type} {x y : Run α}

theorem refl (x : Run α) : Below x x := fun _ => .inr rfl

theorem throw (y : Run α) : Below (MonadExcept.throw .outOfFuel) y := fun m => .inl ⟨m, rfl⟩

/-- A result that is not for want of fuel is the result of the larger computation too. -/
theorem eq (h : Below x y) {m : Machine} (hx : ∀ m', x m ≠ .error .outOfFuel m') : y m = x m :=
  ((h m).resolve_left fun ⟨m', hm'⟩ => hx m' hm').symm

theorem bind {f g : α → Run β} (hx : Below x y) (hf : ∀ a, Below (f a) (g a)) : Below (x >>= f) (y >>= g) := by
  intro m
  change (∃ m', EStateM.bind x f m = _) ∨ EStateM.bind x f m = EStateM.bind y g m
  unfold EStateM.bind
  rcases hx m with ⟨m', hm'⟩ | heq
  · exact .inl ⟨m', by rw [hm']⟩
  · rw [← heq]
    cases x m with
    | error e m' => exact .inr rfl
    | ok a m' => exact hf a m'

/-- The rule for what follows a computation that does not depend on fuel. -/
theorem after {f g : α → Run β} (hf : ∀ a, Below (f a) (g a)) : Below (x >>= f) (x >>= g) := bind (refl x) hf

/-- The rule for a computation that fails first of all under a condition. -/
theorem failIf {c : Prop} [Decidable c] {e : RuntimeError} {f g : PUnit → Run β} (h : Below (f ⟨⟩) (g ⟨⟩)) :
    Below (if c then Run.fail e >>= f else f ⟨⟩) (if c then Run.fail e >>= g else g ⟨⟩) := by
  split
  · exact after fun _ => h
  · exact h

theorem deeper (h : Below x y) : Below (Run.deeper x) (Run.deeper y) := by
  intro m
  unfold Run.deeper
  rcases h { m with depth := m.depth + 1 } with ⟨m', hm'⟩ | heq
  · exact .inl ⟨_, by rw [hm']⟩
  · exact .inr (by rw [heq])

theorem nest (h : Below x y) : Below (Run.nest x) (Run.nest y) := by
  intro m
  unfold Run.nest
  split
  · exact .inr rfl
  · dsimp only
    rcases h { m with depth := m.depth + 1, nestedRuns := m.nestedRuns + 1 } with ⟨m', hm'⟩ | heq
    · exact .inl ⟨_, by rw [hm']⟩
    · exact .inr (by rw [heq])

/-! ## Texts of values -/

section Texts

variable {render render' : Value → Run String} (hrender : ∀ v, Below (render v) (render' v))
include hrender

theorem native (n : Native) (receiver : Value) (args : List Value) :
    Below (n.run render receiver args) (n.run render' receiver args) := by
  cases n
  case builderAppend => exact after fun _ => bind (hrender _) fun _ => refl _
  all_goals exact refl _

theorem beginCall (t : Target) (receiver : Option Value) (args : List Value) :
    Below (ClassTree.beginCall render t receiver args) (ClassTree.beginCall render' t receiver args) := by
  refine after fun _ => failIf (failIf (after fun _ => ?_))
  split
  · exact bind (deeper (native hrender _ _ _)) fun _ => refl _
  · exact refl _
  · exact refl _

theorem dispatch (f : Frame) (t : Target) (receiver : Option Value) (args : List Value) (keep : Bool) :
    Below (f.dispatch render t receiver args keep) (f.dispatch render' t receiver args keep) :=
  bind (beginCall hrender t receiver args) fun _ => refl _

theorem invoke (f : Frame) (kind : CallKind) (ref : UInt16) :
    Below (f.invoke render kind ref) (f.invoke render' kind ref) := by
  refine after fun _ => after fun _ => after fun _ => ?_
  cases kind with
  | virtual => exact after fun _ => after fun _ => after fun _ => after fun _ => dispatch hrender _ _ _ _ _
  | special => exact after fun _ => after fun _ => after fun _ => failIf (dispatch hrender _ _ _ _ _)
  | static => exact after fun _ => after fun _ => dispatch hrender _ _ _ _ _

theorem concat (a b : Value) : Below (ClassTree.concat render a b) (ClassTree.concat render' a b) :=
  bind (hrender a) fun _ => bind (hrender b) fun _ => refl _

theorem arithmetic (op : ArithOp) (a b : Value) :
    Below (ClassTree.arithmetic render op a b) (ClassTree.arithmetic render' op a b) := by
  unfold ClassTree.arithmetic
  split
  · exact concat hrender _ _
  · exact concat hrender _ _
  · exact refl _

omit hrender in
theorem binary (f : Frame) {op op' : Value → Value → Run Value} (hop : ∀ a b, Below (op a b) (op' a b)) :
    Below (f.binary op) (f.binary op') := by
  unfold Frame.binary
  split
  · exact bind (hop _ _) fun _ => refl _
  · exact refl _

theorem exec (f : Frame) (i : Instr) : Below (f.exec render i) (f.exec render' i) := by
  cases i
  case invoke kind ref => exact invoke hrender f kind ref
  case invokeDynamic name argc =>
    exact after fun _ => after fun _ => after fun _ => after fun _ => dispatch hrender _ _ _ _ _
  case invokeSpecialDyn cls argc =>
    exact after fun _ => after fun _ => after fun _ => after fun _ => failIf (after fun _ => dispatch hrender _ _ _ _ _)
  case invokeStaticDyn cls method argc =>
    exact after fun _ => after fun _ => after fun _ => after fun _ => after fun _ => dispatch hrender _ _ _ _ _
  case arith op => exact binary f (arithmetic hrender op)
  case concat => exact binary f (concat hrender)
  all_goals exact refl _

/-- A run with more steps, and with texts that may take more of them. -/
theorem drive (watch : Watch) {fuel fuel' : Nat} (hle : fuel ≤ fuel') (f : Frame) (callers : List Frame) :
    Below (Run.drive watch render fuel f callers) (Run.drive watch render' fuel' f callers) := by
  induction fuel generalizing fuel' f callers with
  | zero => exact throw _
  | succ fuel ih =>
    obtain ⟨fuel', rfl⟩ : ∃ k, fuel' = k + 1 := ⟨fuel' - 1, by omega⟩
    have ih' : ∀ f callers, Below (Run.drive watch render fuel f callers) (Run.drive watch render' fuel' f callers) :=
      ih (by omega)
    refine after fun _ => bind (after fun i => exec hrender _ i) fun control => ?_
    cases control with
    | next f => exact ih' f callers
    | call caller callee => exact after fun _ => ih' callee (caller :: callers)
    | ret f v =>
      refine after fun _ => after fun v => ?_
      cases callers with
      | nil => exact refl _
      | cons caller callers => exact ih' _ callers

end Texts

theorem textOf {run run' : Frame → Run Value} (hrun : ∀ f, Below (run f) (run' f)) (v : Value) :
    Below (ClassTree.textOf run v) (ClassTree.textOf run' v) := by
  cases v
  case object id =>
    refine after fun _ => ?_
    split
    · exact refl _
    · refine bind (after fun i => ?_) fun _ => refl _
      cases i with
      | done v => exact refl _
      | enter f => exact hrun f
  all_goals exact refl _

theorem frameAt (watch : Watch) {fuel fuel' : Nat} (hle : fuel ≤ fuel') (levels : Nat) (f : Frame) :
    Below (Run.frameAt watch fuel levels f) (Run.frameAt watch fuel' levels f) := by
  induction levels generalizing f with
  | zero => exact throw _
  | succ levels ih => exact nest (drive (textOf ih) watch hle f [])

end Below

/-- With enough fuel the computation comes to the result. -/
def Ends {α : Type} (x : Nat → Run α) (m : Machine) (r : EStateM.Result Halt Machine α) : Prop :=
  (∃ fuel, x fuel m = r) ∧ ∀ m', r ≠ .error .outOfFuel m'

end Run

end ClassTree
