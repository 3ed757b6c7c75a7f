import GraphCalc.Proofs.Eval.Faults
import GraphCalc.Proofs.Eval.Limits

/-! # Well-formed trees

A tree is well formed under a table of user functions if its operators are those of texts, every call
has a function with the right number of arguments, and every variable has a value. Such a tree has
only expected faults. Main notions and statements:

* `Expr.WellFormed`: well-formed trees; a proposition says whether they may divide outside
  integrands;
* `Bindings.Binds`: the bindings have a value for each of some names;
* `WellFormedBodies`: every user function has a well-formed body;
* `Expr.WellFormed.faults`: one tree, when entering user functions has only expected faults;
* `faults_enter`: entering user functions has only expected faults, by induction on the calls left;
* `Expr.WellFormed.outcome`: what the evaluation of a well-formed tree can end in.
-/

namespace GraphCalc
set_option autoImplicit false

/-! ## Bindings -/

/-- The bindings have a value for each of the names. -/
def Bindings.Binds (bindings : Bindings) (names : String → Prop) : Prop :=
  ∀ name, names name → (bindings.lookup name).isSome = true

theorem Bindings.Binds.cons {bindings : Bindings} {names : String → Prop} (h : bindings.Binds names)
    (parameter : String) (x : Float) :
    Bindings.Binds ((parameter, x) :: bindings) fun name => name = parameter ∨ names name := by
  intro name hname
  rw [List.lookup_cons]
  cases heq : name == parameter with
  | true => rfl
  | false => exact h name (hname.resolve_left (by simpa using heq))

/-! ## Trees -/

/-- A tree whose variables are constants or in scope, under a table of user functions. Inside an
integrand the variable of integration is in scope too, and divisions are allowed there; elsewhere
they are if `divides` holds. -/
inductive Expr.WellFormed (functions : FunctionTable) : Prop → (String → Prop) → Expr → Prop where
  | number {divides scope v} : WellFormed functions divides scope (.number v)
  | var {divides scope name} (h : scope name ∨ (constants.lookup name).isSome = true) :
      WellFormed functions divides scope (.var name)
  | signed {divides scope sign e} (known : sign ∈ [Sign.plus, Sign.minus])
      (operand : WellFormed functions divides scope e) :
      WellFormed functions divides scope (.signed sign e)
  | binary {divides scope operator a b} (known : operator ∈ Operator.known)
      (divisor : operator = .divide ∨ operator = .modulo → divides)
      (left : WellFormed functions divides scope a) (right : WellFormed functions divides scope b) :
      WellFormed functions divides scope (.binary operator a b)
  | user {divides scope name definition e} (defined : functions.find? name = some definition)
      (argument : WellFormed functions divides scope e) :
      WellFormed functions divides scope (.call name [e])
  | integral {divides scope e a b} (undefined : functions.find? integralName = none)
      (integrand : WellFormed functions True (fun name => name = integrationVariable ∨ scope name) e)
      (lower : WellFormed functions divides scope a) (upper : WellFormed functions divides scope b) :
      WellFormed functions divides scope (.call integralName [e, a, b])
  | builtin {divides scope name builtin es} (undefined : functions.find? name = none)
      (known : builtin? name = some builtin) (count : es.length = builtin.arity)
      (arguments : ∀ e ∈ es, WellFormed functions divides scope e) :
      WellFormed functions divides scope (.call name es)

/-- Every user function has a body that is well formed with its parameter in scope beside the names
bound at the start. -/
def WellFormedBodies (functions : FunctionTable) (limit : Room) (divides : Prop)
    (bound : String → Prop) : Prop :=
  ∀ name d, functions.find? name = some d → ∃ body, functions.readWithin limit d.body = .ok body ∧
    body.WellFormed functions divides fun name => name = d.parameter ∨ bound name

/-! ## One tree -/

section Tree
variable {c : Calculus} {enter? : Option (Entry (Except EvalError))} {bodiesDivide : Prop}
  {bound : String → Prop}

theorem faults_valueOf {divides : Prop} {scope : String → Prop} {bindings : Bindings} {name : String}
    (h : scope name ∨ (constants.lookup name).isSome = true) (hscope : bindings.Binds scope) :
    Faults (Expected c.functions divides) (bindings.valueOf name) := by
  unfold Bindings.valueOf
  split
  · exact .ok _
  · next hfree =>
    have hconstant : (constants.lookup name).isSome = true := by
      refine h.resolve_left fun hname => ?_
      have hbound := hscope name hname
      rw [hfree] at hbound
      cases hbound
    split
    · exact .ok _
    · next hnone =>
      rw [hnone] at hconstant
      cases hconstant

theorem faults_values {allowed : EvalError → Prop} {room : Room} {bindings : Bindings} {es : List Expr}
    (h : ∀ e ∈ es, Faults allowed (e.value c enter? room bindings)) :
    Faults allowed (Expr.values c enter? room bindings es) := by
  induction es with
  | nil =>
    rw [Expr.values]
    exact .ok _
  | cons e es ih =>
    rw [Expr.values]
    refine (h e (List.mem_cons_self ..)).bind fun v _ => ?_
    exact (ih fun e he => h e (List.mem_cons_of_mem _ he)).bind fun vs _ => .ok _

/-- Entering a user function has only expected faults. -/
def EntersWell (c : Calculus) (bodiesDivide : Prop) (bound : String → Prop)
    (enter? : Option (Entry (Except EvalError))) : Prop :=
  ∀ enter, enter? = some enter → ∀ name d, c.functions.find? name = some d →
    ∀ (bindings : Bindings) (x : Float), bindings.Binds bound →
      Faults (Expected c.functions bodiesDivide) (enter d none bindings x)

/-- A well-formed tree has only expected faults if entering user functions has only such. The
induction is on the tree; the scope grows inside integrands. -/
theorem Expr.WellFormed.faults {divides : Prop} {scope : String → Prop} {e : Expr}
    (hcount : Quadrature.evenCount c.simpsonIntervals ≠ 0)
    (hfinite : (Float.ofInt (Quadrature.evenCount c.simpsonIntervals)).isFinite = true)
    (henter : EntersWell c bodiesDivide bound enter?) (h : e.WellFormed c.functions divides scope)
    (hbodies : bodiesDivide → divides) {bindings : Bindings} (hscope : bindings.Binds scope)
    (hbound : bindings.Binds bound) :
    Faults (Expected c.functions divides) (e.value c enter? none bindings) := by
  induction h generalizing bindings with
  | number =>
    rw [Expr.value]
    exact .nested (.ok _)
  | var h =>
    rw [Expr.value]
    exact .nested (faults_valueOf h hscope)
  | signed known _ ih =>
    rw [Expr.value]
    exact .nested ((ih hbodies hscope hbound).bind fun _ _ => .ok _)
  | binary known divisor _ _ ihleft ihright =>
    rw [Expr.value]
    refine .nested ((ihleft hbodies hscope hbound).bind fun a _ => ?_)
    exact (ihright hbodies hscope hbound).bind fun b _ => faults_apply known divisor a b
  | @user _ _ name d _ defined _ ih =>
    have hdefines : c.functions.defines name = true := by
      rw [FunctionTable.defines, defined]
      rfl
    rw [Expr.value]
    refine .nested (.nested ?_)
    rw [if_neg (by simp [hdefines]), defined]
    dsimp only
    split
    · exact .error hdefines
    · next enter =>
      refine (ih hbodies hscope hbound).bind fun x _ => ?_
      exact (henter enter rfl name d defined bindings x hbound).mono (Expected.mono hbodies)
  | integral undefined _ _ _ ihintegrand ihlower ihupper =>
    have hdefines : c.functions.defines integralName = false := by
      rw [FunctionTable.defines, undefined]
      rfl
    rw [Expr.value]
    refine .nested (.nested ?_)
    rw [if_pos ⟨rfl, by simp [hdefines]⟩]
    refine .nested ((ihlower hbodies hscope hbound).bind fun a _ => ?_)
    refine (ihupper hbodies hscope hbound).bind fun b _ => ?_
    refine Faults.bind (Quadrature.faults_integral hcount hfinite (fun x => ?_) a b) fun _ _ => .ok _
    refine .nested (faults_sampleOf ?_)
    -- Inside the integrand divisions are allowed, and a sample turns their fault into no value.
    refine ihintegrand (fun _ => trivial) (hscope.cons _ x) ?_
    exact fun name hname => hbound.cons _ x name (.inr hname)
  | @builtin _ _ name builtin es undefined known count _ ih =>
    have hname : name ≠ integralName := by
      rintro rfl
      rw [builtin?_integralName] at known
      cases known
    rw [Expr.value]
    refine .nested (.nested ?_)
    rw [if_neg (by simp [hname]), undefined]
    dsimp only
    rw [known]
    dsimp only
    rw [if_pos count]
    exact (faults_values fun e he => ih e he hbodies hscope hbound).bind fun _ _ => .ok _

end Tree

/-! ## All calls -/

section Calls
variable {c : Calculus} {limit : Room} {divides : Prop} {bound : String → Prop}

/-- With well-formed bodies, entering user functions has only expected faults however many calls are
left: a body is a well-formed tree, and it enters functions with one call less. -/
theorem faults_enter (hcount : Quadrature.evenCount c.simpsonIntervals ≠ 0)
    (hfinite : (Float.ofInt (Quadrature.evenCount c.simpsonIntervals)).isFinite = true)
    (hbodies : WellFormedBodies c.functions limit divides bound) (calls : Nat) :
    EntersWell c divides bound (c.enter? (c.functions.atHand limit) calls) := by
  induction calls with
  | zero =>
    rintro enter ⟨⟩
  | succ calls ih =>
    rintro enter ⟨⟩ name d hfind bindings x hbound
    obtain ⟨body, hbody, hwell⟩ := hbodies name d hfind
    show Faults _ (c.functions.atHand limit d none >>= _)
    rw [FunctionTable.atHand, hbody]
    refine hwell.faults hcount hfinite ih id (hbound.cons _ x) ?_
    exact fun name hname => hbound.cons _ x name (.inr hname)

/-- Where no nesting is too deep, a well-formed tree has a value, divides by zero or calls too deeply. -/
theorem Expr.WellFormed.outcome (hcount : Quadrature.evenCount c.simpsonIntervals ≠ 0)
    (hfinite : (Float.ofInt (Quadrature.evenCount c.simpsonIntervals)).isFinite = true)
    {bindings : Bindings} (hbound : bindings.Binds bound)
    (hbodies : WellFormedBodies c.functions limit divides bound) {e : Expr}
    (he : e.WellFormed c.functions divides bound) (calls : ℕ) :
    (∃ v, c.outcome limit calls bindings e = .ok v) ∨
    (divides ∧ c.outcome limit calls bindings e = .error .divisionByZero) ∨
    (∃ name, c.functions.defines name = true ∧
      c.outcome limit calls bindings e = .error (.callDepth name)) := by
  have hfaults : Faults (Expected c.functions divides) (c.outcome limit calls bindings e) :=
    he.faults hcount hfinite (faults_enter hcount hfinite hbodies _) id hbound hbound
  cases hvalue : c.outcome limit calls bindings e with
  | ok v => exact .inl ⟨v, rfl⟩
  | error fault =>
    have hexpected := hfaults fault hvalue
    cases fault with
    | divisionByZero => exact .inr (.inl ⟨hexpected, rfl⟩)
    | callDepth name => exact .inr (.inr ⟨name, hexpected, rfl⟩)
    | _ => exact hexpected.elim

end Calls
end GraphCalc
