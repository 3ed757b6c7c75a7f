import GraphCalc.Proofs.Eval.Limits
import GraphCalc.Proofs.Grammar.Local
import GraphCalc.Proofs.Source.Renaming

/-! # Renaming a variable in a tree

A parameter is bound when its function is entered, or renamed to the variable `x` when its function is
drawn. The two come to the same unless the renamed variable is lost: an integral binds `x` itself, and
the body of another user function still looks for the parameter. Main notions and statements:

* `Expr.Loses`: a tree in which renaming loses a variable;
* `Renameable`: a tree for which renaming is made good by the bindings;
* `value_mapVars`: then the renamed tree has the same value.
-/

namespace GraphCalc
open GraphCalc.Token
set_option autoImplicit false

/-! ## Trees that lose a variable -/

/-- Renaming a variable to the one that integrals bind loses it: in an integrand, where the new name
is another variable, and in the body of a called function, which looks for the old name. -/
inductive Expr.Loses (functions : FunctionTable) (limit : Room) : Expr → String → Prop where
  | operand {sign e name} (h : Loses functions limit e name) : Loses functions limit (.signed sign e) name
  | left {operator a b name} (h : Loses functions limit a name) :
      Loses functions limit (.binary operator a b) name
  | right {operator a b name} (h : Loses functions limit b name) :
      Loses functions limit (.binary operator a b) name
  | integrand {e a b name} (undefined : functions.find? integralName = none)
      (h : e.Reads functions limit name) : Loses functions limit (.call integralName [e, a, b]) name
  | lower {e a b name} (undefined : functions.find? integralName = none)
      (h : Loses functions limit a name) : Loses functions limit (.call integralName [e, a, b]) name
  | upper {e a b name} (undefined : functions.find? integralName = none)
      (h : Loses functions limit b name) : Loses functions limit (.call integralName [e, a, b]) name
  | argument {head definition e name} (defined : functions.find? head = some definition)
      (h : Loses functions limit e name) : Loses functions limit (.call head [e]) name
  | body {head definition e name} (defined : functions.find? head = some definition)
      (h : functions.Reads limit definition name) : Loses functions limit (.call head [e]) name
  | builtin {head builtin es e name} (undefined : functions.find? head = none)
      (known : builtin? head = some builtin) (member : e ∈ es) (h : Loses functions limit e name) :
      Loses functions limit (.call head es) name

/-- A tree does not need the old name of a variable, or it is bound under the new name and no place
in the tree loses it. -/
def Renameable (functions : FunctionTable) (limit : Room) (name : String)
    (bindings bindings' : Bindings) (e : Expr) : Prop :=
  ¬ e.Reads functions limit name ∨ ¬ e.Loses functions limit name ∧
    ∃ v, bindings.lookup name = some v ∧ bindings'.lookup integrationVariable = some v

section Parts
variable {functions : FunctionTable} {limit : Room} {name : String} {bindings bindings' : Bindings}
  {e e' : Expr}

/-- A part of a tree is renameable with the tree if the tree reads and loses what the part does. -/
theorem Renameable.part (h : Renameable functions limit name bindings bindings' e)
    (hreads : e'.Reads functions limit name → e.Reads functions limit name)
    (hloses : e'.Loses functions limit name → e.Loses functions limit name) :
    Renameable functions limit name bindings bindings' e' :=
  h.imp (mt hreads) fun hbound => ⟨mt hloses hbound.1, hbound.2⟩

/-- What neither is read by a renameable tree nor lost in it is not free in the part. -/
theorem Renameable.not_of {p : Prop} (h : Renameable functions limit name bindings bindings' e)
    (hreads : p → e.Reads functions limit name) (hloses : p → e.Loses functions limit name) : ¬ p := by
  rcases h with h | ⟨h, -⟩
  · exact mt hreads h
  · exact mt hloses h

end Parts

/-! ## Values -/

namespace Expr

@[simp] theorem length_mapVarsAll (f : String → String) (es : List Expr) :
    (mapVarsAll f es).length = es.length := by
  induction es with
  | nil => rfl
  | cons e es ih => rw [mapVarsAll, List.length_cons, List.length_cons, ih]

end Expr

section Values
variable {m : Type → Type} [Monad m] [MonadExceptOf EvalError m] {c : Calculus} {limit : Room}
  {enter? : Option (Entry m)} {name : String}

/-- Two lists of bindings that differ in one name only go on doing so under a new binding. -/
theorem Bindings.Agree.cons_ne {bindings bindings' : Bindings}
    (h : bindings.Agree (· ≠ name) bindings') (parameter : String) (x : Float) :
    Bindings.Agree (· ≠ name) ((parameter, x) :: bindings) ((parameter, x) :: bindings') :=
  Bindings.Agree.cons (h.mono fun _ hname => hname.1) x

theorem values_mapVars {f : String → String} {room : Room} {bindings bindings' : Bindings}
    {es : List Expr}
    (h : ∀ e ∈ es, (e.mapVars f).value c enter? room bindings' = e.value c enter? room bindings) :
    Expr.values c enter? room bindings' (Expr.mapVarsAll f es) =
      Expr.values c enter? room bindings es := by
  induction es with
  | nil => rw [Expr.mapVarsAll, Expr.values, Expr.values]
  | cons e es ih =>
    rw [Expr.mapVarsAll, Expr.values, Expr.values, h e (List.mem_cons_self ..),
      ih fun e' he' => h e' (List.mem_cons_of_mem _ he')]

/-! ### Calls with alike arguments -/

section Calls
variable {bindings bindings' : Bindings} {e e' a a' b b' : Expr} {head : String}

theorem value_integral_congr (undefined : c.functions.find? integralName = none)
    (hlower : ∀ room, a'.value c enter? room bindings' = a.value c enter? room bindings)
    (hupper : ∀ room, b'.value c enter? room bindings' = b.value c enter? room bindings)
    (hintegrand : ∀ room x, e'.value c enter? room ((integrationVariable, x) :: bindings') =
      e.value c enter? room ((integrationVariable, x) :: bindings)) (room : Room) :
    (Expr.call integralName [e', a', b']).value c enter? room bindings' =
      (Expr.call integralName [e, a, b]).value c enter? room bindings := by
  rw [Expr.value, Expr.value]
  simp only [FunctionTable.defines, undefined, Option.isSome_none, Bool.false_eq_true,
    not_false_eq_true, and_self, if_true, hlower, hupper, hintegrand]

theorem value_user_congr {definition : Definition}
    (defined : c.functions.find? head = some definition)
    (hargument : ∀ room, e'.value c enter? room bindings' = e.value c enter? room bindings)
    (hbody : ∀ enter, enter? = some enter → ∀ room x,
      enter definition room bindings' x = enter definition room bindings x) (room : Room) :
    (Expr.call head [e']).value c enter? room bindings' =
      (Expr.call head [e]).value c enter? room bindings := by
  rw [Expr.value, Expr.value]
  simp only [FunctionTable.defines, defined, Option.isSome_some, not_true, and_false, if_false,
    hargument]
  cases enter? with
  | none => rfl
  | some enter => simp only [hbody enter rfl]

theorem value_builtin_congr (undefined : c.functions.find? head = none) (hne : head ≠ integralName)
    {es es' : List Expr} (hlength : es'.length = es.length)
    (hvalues : ∀ builtin, builtin? head = some builtin → ∀ room,
      Expr.values c enter? room bindings' es' = Expr.values c enter? room bindings es)
    (room : Room) :
    (Expr.call head es').value c enter? room bindings' =
      (Expr.call head es).value c enter? room bindings := by
  rw [Expr.value, Expr.value]
  simp only [hne, false_and, if_false, undefined, hlength]
  cases hbuiltin : builtin? head with
  | none => rfl
  | some builtin => simp only [hvalues builtin hbuiltin]

end Calls

/-- A tree and the renamed tree have one value where the bindings make the renaming good. The
induction is on the tree: in an integrand the variable is not read, so there it need not be bound
under the new name. -/
theorem value_mapVars (henter : (Parallel.same m).Enters (fun _ => True) c.functions limit enter? enter?)
    (hname : name ≠ integrationVariable) (e : Expr) {room : Room} {bindings bindings' : Bindings}
    (hagree : bindings.Agree (· ≠ name) bindings')
    (h : Renameable c.functions limit name bindings bindings' e) :
    (e.mapVars (renamedName name integrationVariable)).value c enter? room bindings' =
      e.value c enter? room bindings := by
  induction e using Expr.induction generalizing room bindings bindings' with
  | number v => rw [Expr.mapVars, Expr.value, Expr.value]
  | var name' =>
    rw [Expr.mapVars, Expr.value, Expr.value]
    refine bind_congr fun inside => ?_
    by_cases hsame : name' = name
    · subst hsame
      obtain h | ⟨-, v, hold, hnew⟩ := h
      · exact absurd .var h
      · rw [renamedName, if_pos rfl]
        simp only [Bindings.valueOf, hold, hnew]
    · rw [renamedName, if_neg hsame]
      exact Bindings.Agree.valueOf (hagree name' hsame).symm
  | signed sign e ih =>
    rw [Expr.mapVars, Expr.value, Expr.value]
    refine bind_congr fun inside => ?_
    dsimp only
    rw [ih hagree (h.part .operand .operand)]
  | binary operator a b iha ihb =>
    rw [Expr.mapVars, Expr.value, Expr.value]
    refine bind_congr fun inside => ?_
    dsimp only
    rw [iha hagree (h.part .left .left), ihb hagree (h.part .right .right)]
  | call head es ih =>
    rw [Expr.mapVars]
    -- A call with a wrong number of arguments evaluates none of them.
    cases hfind : c.functions.find? head with
    | some definition =>
      rcases es with _ | ⟨e, _ | ⟨d, es⟩⟩
      case cons.nil =>
        refine value_user_congr hfind (fun _ => ih e (by simp) hagree
          (h.part (.argument hfind) (.argument hfind))) (fun enter henter' inner x => ?_) room
        have hbody : ¬ c.functions.Reads limit definition name :=
          h.not_of (fun hreads => (Expr.reads_user_iff hfind).mpr (.inr hreads)) (.body hfind)
        rw [henter'] at henter
        refine Eq.symm (henter head definition trivial hfind inner inner _ _ x rfl
          (hagree.mono fun name' hreads => ?_))
        rintro rfl
        exact hbody hreads
      all_goals
        rw [Expr.mapVarsAll, Expr.value, Expr.value]
        simp [hfind, FunctionTable.defines, Expr.mapVarsAll]
    | none =>
      by_cases hintegral : head = integralName
      · subst hintegral
        rcases es with _ | ⟨e, _ | ⟨a, _ | ⟨b, _ | ⟨d, es⟩⟩⟩⟩
        case cons.cons.cons.nil =>
          have hreads : ¬ e.Reads c.functions limit name :=
            h.not_of (fun hreads => .integrand hfind hreads hname) (.integrand hfind)
          exact value_integral_congr hfind
            (fun _ => ih a (by simp) hagree (h.part (.lower hfind) (.lower hfind)))
            (fun _ => ih b (by simp) hagree (h.part (.upper hfind) (.upper hfind)))
            (fun _ x => ih e (by simp) (hagree.cons_ne integrationVariable x) (.inl hreads)) room
        all_goals
          rw [Expr.value, Expr.value]
          simp [hfind, FunctionTable.defines, Expr.mapVarsAll]
      · exact value_builtin_congr hfind hintegral (Expr.length_mapVarsAll _ es)
          (fun builtin hbuiltin _ => values_mapVars fun e he => ih e he hagree
            (h.part (.builtin hfind hbuiltin he) (.builtin hfind hbuiltin he))) room

end Values
end GraphCalc
