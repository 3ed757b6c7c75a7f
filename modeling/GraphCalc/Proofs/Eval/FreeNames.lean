import GraphCalc.Eval.Value
import Mathlib

/-! # Free names

A variable is free in a tree if evaluation may look for it in the bindings that it starts from. An
integral binds its variable in its integrand, and a user function its parameter in its body; all
other names in a body are looked for among the bindings of the caller, so they are free in the call.
As bodies call each other, free names are defined as a least relation. Main notions and statements:

* `Expr.induction`: induction on trees, with a list of arguments at each call;
* `Expr.Reads`: the free names of a tree under a table of user functions;
* `reads_integral_iff`, `reads_user_iff` and their like: the free names of each form of tree;
* `Bindings.Agree`: two lists of bindings have the same values for some names.
-/

namespace GraphCalc
set_option autoImplicit false

theorem builtin?_integralName : builtin? integralName = none := by decide

/-! ## Trees -/

/-- To prove a property of all trees, prove it of a call if all its arguments have it. -/
@[elab_as_elim]
theorem Expr.induction {P : Expr → Prop} (number : ∀ v, P (.number v)) (var : ∀ name, P (.var name))
    (signed : ∀ sign e, P e → P (.signed sign e))
    (binary : ∀ operator a b, P a → P b → P (.binary operator a b))
    (call : ∀ name es, (∀ e ∈ es, P e) → P (.call name es)) (e : Expr) : P e := by
  refine Expr.rec (motive_2 := fun es => ∀ e ∈ es, P e) number var signed binary call ?_ ?_ e
  · intro e he
    cases he
  · intro e es he hes e' he'
    rcases List.mem_cons.mp he' with rfl | htail
    · exact he
    · exact hes e' htail

/-- A name is free in a tree. A call of a user function reads what its argument reads and, if the
body is readable in the room that bodies have at most, what the body reads less the parameter. Calls with
a wrong number of arguments and calls of unknown functions have a fault of their own before any variable
is looked for. -/
inductive Expr.Reads (functions : FunctionTable) (limit : Room) : Expr → String → Prop where
  | var {name} : Reads functions limit (.var name) name
  | operand {sign e name} (h : Reads functions limit e name) : Reads functions limit (.signed sign e) name
  | left {operator a b name} (h : Reads functions limit a name) :
      Reads functions limit (.binary operator a b) name
  | right {operator a b name} (h : Reads functions limit b name) :
      Reads functions limit (.binary operator a b) name
  | integrand {e a b name} (undefined : functions.find? integralName = none)
      (h : Reads functions limit e name) (free : name ≠ integrationVariable) :
      Reads functions limit (.call integralName [e, a, b]) name
  | lower {e a b name} (undefined : functions.find? integralName = none)
      (h : Reads functions limit a name) : Reads functions limit (.call integralName [e, a, b]) name
  | upper {e a b name} (undefined : functions.find? integralName = none)
      (h : Reads functions limit b name) : Reads functions limit (.call integralName [e, a, b]) name
  | argument {head definition e name} (defined : functions.find? head = some definition)
      (h : Reads functions limit e name) : Reads functions limit (.call head [e]) name
  | body {head definition body e name} (defined : functions.find? head = some definition)
      (readable : functions.readWithin limit definition.body = .ok body)
      (h : Reads functions limit body name) (free : name ≠ definition.parameter) :
      Reads functions limit (.call head [e]) name
  | builtin {head builtin es e name} (undefined : functions.find? head = none)
      (known : builtin? head = some builtin) (member : e ∈ es) (h : Reads functions limit e name) :
      Reads functions limit (.call head es) name

/-! ### Free names of each form of tree -/

section Forms
variable {functions : FunctionTable} {limit : Room} {name : String}

/-- The free names of a function: what its body reads, less the parameter. -/
def FunctionTable.Reads (functions : FunctionTable) (limit : Room) (definition : Definition)
    (name : String) : Prop :=
  (∃ body, functions.readWithin limit definition.body = .ok body ∧ body.Reads functions limit name) ∧
    name ≠ definition.parameter

namespace Expr

@[simp] theorem reads_number (v : Float) : ¬ Reads functions limit (.number v) name := nofun

@[simp] theorem reads_var_iff {name' : String} : Reads functions limit (.var name') name ↔ name = name' := by
  constructor
  · rintro ⟨⟩
    rfl
  · rintro rfl
    exact .var

@[simp] theorem reads_binary_iff {operator : Operator} {a b : Expr} :
    Reads functions limit (.binary operator a b) name ↔ Reads functions limit a name ∨ Reads functions limit b name := by
  constructor
  · rintro (_ | _ | h | h)
    · exact .inl h
    · exact .inr h
  · rintro (h | h)
    · exact .left h
    · exact .right h

theorem reads_integral_iff (undefined : functions.find? integralName = none) {e a b : Expr} :
    Reads functions limit (.call integralName [e, a, b]) name ↔
      (Reads functions limit e name ∧ name ≠ integrationVariable) ∨ Reads functions limit a name ∨
        Reads functions limit b name := by
  constructor
  · intro h
    cases h with
    | integrand _ h free => exact .inl ⟨h, free⟩
    | lower _ h => exact .inr (.inl h)
    | upper _ h => exact .inr (.inr h)
    | builtin _ known => exact absurd known (by rw [builtin?_integralName]; nofun)
  · rintro (⟨h, free⟩ | h | h)
    · exact .integrand undefined h free
    · exact .lower undefined h
    · exact .upper undefined h

theorem reads_user_iff {head : String} {definition : Definition}
    (defined : functions.find? head = some definition) {e : Expr} :
    Reads functions limit (.call head [e]) name ↔
      Reads functions limit e name ∨ functions.Reads limit definition name := by
  constructor
  · intro h
    cases h with
    | argument _ h => exact .inl h
    | body defined' readable h free =>
      obtain rfl := Option.some.inj (defined.symm.trans defined')
      exact .inr ⟨⟨_, readable, h⟩, free⟩
    | builtin undefined => exact absurd (undefined.symm.trans defined) nofun
  · rintro (h | ⟨⟨body, readable, h⟩, free⟩)
    · exact .argument defined h
    · exact .body defined readable h free

end Expr
end Forms

/-! ## Bindings -/

/-- Two lists of bindings have the same values for some names: each of the names is bound to one
value in both, or is bound in neither. -/
def Bindings.Agree (names : String → Prop) (bindings bindings' : Bindings) : Prop :=
  ∀ name, names name → bindings.lookup name = bindings'.lookup name

section Agreement
variable {names names' : String → Prop} {bindings bindings' : Bindings}

theorem Bindings.Agree.mono (h : bindings.Agree names bindings')
    (himp : ∀ name, names' name → names name) : bindings.Agree names' bindings' :=
  fun name hname => h name (himp name hname)

/-- A name that both bind anew to one value need not have had the same value before. -/
theorem Bindings.Agree.cons {parameter : String}
    (h : bindings.Agree (fun name => names name ∧ name ≠ parameter) bindings') (x : Float) :
    Bindings.Agree names ((parameter, x) :: bindings) ((parameter, x) :: bindings') := by
  intro name hname
  rw [List.lookup_cons, List.lookup_cons]
  cases heq : name == parameter with
  | true => rfl
  | false => exact h name ⟨hname, by simpa using heq⟩

theorem Bindings.Agree.valueOf {m : Type → Type} [Monad m] [MonadExceptOf EvalError m] {name : String}
    (h : bindings.lookup name = bindings'.lookup name) :
    (bindings.valueOf name : m Float) = bindings'.valueOf name := by
  rw [Bindings.valueOf, Bindings.valueOf, h]

end Agreement

end GraphCalc
