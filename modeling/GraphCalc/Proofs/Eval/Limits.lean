import GraphCalc.Proofs.Eval.Parallel

/-! # Limits of evaluation

Calls and nesting are limited. What would come out if no nesting were too deep is an outcome by itself:
it depends on the tree, the bindings, the functions and the number of calls left. Main notions and
statements:

* `EvalError.isNesting`, `isCutOff`: the faults and outcomes that stand for too deep nesting;
* `FunctionTable.atHand`: bodies that are there without being read on the way;
* `Calculus.outcome`: the outcome of a tree that no nesting cuts off;
* `Outlasts r s`: `s` is what `r` is, unless `r` ran out of calls;
* `Calculus.outcome_outlasts`: with more calls left, outcomes stay what they are.
-/

namespace GraphCalc
set_option autoImplicit false

/-! ## Nesting -/

/-- The faults that stand for too deep nesting, in a tree or in the text of a body. -/
def EvalError.isNesting : EvalError → Bool
  | .tooDeep => true
  | .unreadable e => e.isNesting
  | _ => false

/-- Too deep nesting cut a computation off. -/
def isCutOff {α : Type} : Except EvalError α → Bool
  | .ok _ => false
  | .error e => e.isNesting

section Outcomes
variable {c c' : Calculus} {limit : Room} {calls calls' : ℕ} {bindings bindings' : Bindings} {e : Expr}

/-- The body of a function, as it reads in the room that bodies have at most, whatever room is left. -/
def FunctionTable.atHand (functions : FunctionTable) (limit : Room) (d : Definition) (_ : Room) :
    Except EvalError Expr :=
  (functions.readWithin limit d.body).mapError .unreadable

/-- The outcome of a tree if no nesting is too deep. -/
def Calculus.outcome (c : Calculus) (limit : Room) (calls : ℕ) (bindings : Bindings) (e : Expr) :
    Except EvalError Float :=
  e.value c (c.enter? (c.functions.atHand limit) calls) none bindings

/-! ## Bodies at hand -/

/-- Two tables that share some names have the same bodies of these names at hand. -/
theorem Parallel.fetches_atHand (P : Parallel (Except EvalError) (Except EvalError)) (limit : Room)
    {names : String → Prop} {functions functions' : FunctionTable}
    (h : functions.Shares names functions') :
    P.Fetches names functions limit (functions.atHand limit) (functions'.atHand limit) := by
  intro head d hhead hfind room room' _ f g hfg
  have hread := h.readWithin_eq (h.closed head d hhead hfind) limit
  rw [FunctionTable.atHand, FunctionTable.atHand, ← hread]
  cases hbody : functions.readWithin limit d.body with
  | error e => exact P.throws (.unreadable e)
  | ok body => exact hfg body hbody

theorem Parallel.enters_same (limit : Room) (c : Calculus) (calls : ℕ) :
    (Parallel.same (Except EvalError)).Enters (fun _ => True) c.functions limit
      (c.enter? (c.functions.atHand limit) calls) (c.enter? (c.functions.atHand limit) calls) :=
  (Parallel.same _).enter (.refl _) rfl (Parallel.fetches_atHand _ limit (.refl _)) calls calls
    (.inl rfl)

/-- The value of a tree depends on its free names only. -/
theorem value_congr (room : Room) (h : bindings.Agree (e.Reads c.functions limit) bindings') :
    e.value c (c.enter? (c.functions.atHand limit) calls) room bindings =
      e.value c (c.enter? (c.functions.atHand limit) calls) room bindings' :=
  (Parallel.same _).value (fun _ _ => rfl) rfl (Parallel.enters_same limit c calls) e
    (fun _ _ => trivial) rfl h

/-! ## More calls -/

variable {α β : Type}

/-- The second outcome is the first, unless that ran out of calls. -/
def Outlasts (r s : Except EvalError α) : Prop := (∃ name, r = .error (.callDepth name)) ∨ r = s

theorem Outlasts.refl (r : Except EvalError α) : Outlasts r r := .inr rfl

theorem Outlasts.eq {r s : Except EvalError α} (h : Outlasts r s)
    (hcalls : ∀ name, r ≠ .error (.callDepth name)) : r = s := by
  rcases h with ⟨name, hr⟩ | h
  · exact absurd hr (hcalls name)
  · exact h

theorem Outlasts.bind {r s : Except EvalError α} {f g : α → Except EvalError β} (h : Outlasts r s)
    (hf : ∀ a, Outlasts (f a) (g a)) : Outlasts (r >>= f) (s >>= g) := by
  rcases h with ⟨name, rfl⟩ | rfl
  · exact .inl ⟨name, rfl⟩
  · cases r with
    | error e => exact .refl _
    | ok a => exact hf a

/-- A division by zero and a value that is not finite leave no lack of calls unseen. -/
theorem Outlasts.sampleOf {r s : Except EvalError Float} (h : Outlasts r s) :
    Outlasts (sampleOf r) (sampleOf s) := by
  rcases h with ⟨name, rfl⟩ | rfl
  · exact .inl ⟨name, rfl⟩
  · exact .refl _

/-- Evaluation goes on as before where calls are left. -/
def Parallel.outlasting : Parallel (Except EvalError) (Except EvalError) where
  Rel := Outlasts
  Rooms := Eq
  returns _ := .refl _
  throws _ := .refl _
  binds := Outlasts.bind
  samples := Outlasts.sampleOf
  nests := by
    rintro _ room _ f g rfl h
    exact Outlasts.bind (.refl _) fun inside => h inside inside rfl

theorem Calculus.outcome_outlasts (c : Calculus) (limit : Room) (h : calls ≤ calls')
    (bindings : Bindings) (e : Expr) :
    Outlasts (c.outcome limit calls bindings e) (c.outcome limit calls' bindings e) := by
  have henter := Parallel.outlasting.enter (.refl c.functions) rfl
    (Parallel.fetches_atHand _ limit (.refl _)) calls calls' (.inr ⟨h, fun name s => .inl ⟨name, rfl⟩⟩)
  exact Parallel.outlasting.value (fun _ _ => rfl) rfl henter e (fun _ _ => trivial) rfl fun _ _ => rfl

end Outcomes
end GraphCalc
