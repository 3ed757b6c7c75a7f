import GraphCalc.Proofs.Eval.FreeNames
import GraphCalc.Proofs.Grammar.Heads

/-! # Two evaluations side by side

A tree may be evaluated twice: with and without a memory, in different rooms, under bindings that agree
where it matters, under tables that differ where it does not matter. A relation between computations that
every step of evaluation respects holds between the two evaluations as a whole. Main notions and
statements:

* `Parallel`: such a relation, with a relation between the rooms of the two evaluations;
* `FunctionTable.Shares`: two tables agree on some names, and the definitions of these names call no
  other name;
* `Parallel.Enters`: two ways of entering user functions that are related;
* `Parallel.value`: the values of a tree are related, by induction on the tree;
* `Parallel.enter`: entering user functions is related if getting their bodies is, by induction on the
  calls left;
* `Parallel.same`: the relation of being the same computation.
-/

namespace GraphCalc
open GraphCalc.Token
set_option autoImplicit false

/-! ## Tables -/

namespace FunctionTable
variable {names : String → Prop} {functions functions' : FunctionTable}

/-- Two tables have the same definitions of some names, and the bodies of these call no other name. -/
structure Shares (names : String → Prop) (functions functions' : FunctionTable) : Prop where
  find?_eq : ∀ name, names name → functions.find? name = functions'.find? name
  closed : ∀ name d, names name → functions.find? name = some d → ∀ head ∈ calledIn d.body, names head

namespace Shares

/-- A table shares all names with itself. -/
theorem refl (functions : FunctionTable) : functions.Shares (fun _ => True) functions where
  find?_eq := fun _ _ => rfl
  closed := fun _ _ _ _ _ _ => trivial

theorem defines_eq (h : functions.Shares names functions') {name : String} (hname : names name) :
    functions.defines name = functions'.defines name := by
  rw [defines, defines, h.find?_eq name hname]

theorem callable_eq (h : functions.Shares names functions') {name : String} (hname : names name) :
    functions.callable name = functions'.callable name := by
  rw [callable, callable, h.defines_eq hname]

/-- Whether other names are callable plays no part in how a text is read that does not call them. -/
theorem readWithin_eq (h : functions.Shares names functions') {text : String}
    (htext : ∀ head ∈ calledIn text, names head) (room : Room) :
    functions.readWithin room text = functions'.readWithin room text :=
  readWithin_of_agree fun name hname => h.callable_eq (htext name hname)

end Shares
end FunctionTable

/-! ## Relations that evaluation respects -/

/-- A relation between computations of two kinds that every step of an evaluation respects, where a
nested step takes rooms that are related to rooms that are. -/
structure Parallel (m m' : Type → Type) [Monad m] [MonadExceptOf EvalError m] [Monad m']
    [MonadExceptOf EvalError m'] where
  Rel : {α : Type} → m α → m' α → Prop
  Rooms : Room → Room → Prop
  returns : ∀ {α : Type} (a : α), Rel (pure a) (pure a)
  throws : ∀ {α : Type} (e : EvalError), Rel (throw e : m α) (throw e)
  binds : ∀ {α β : Type} {r : m α} {s : m' α} {f : α → m β} {g : α → m' β}, Rel r s →
    (∀ a, Rel (f a) (g a)) → Rel (r >>= f) (s >>= g)
  samples : ∀ {r : m Float} {s : m' Float}, Rel r s → Rel (sampleOf r) (sampleOf s)
  nests : ∀ {α : Type} {room room' : Room} {f : Room → m α} {g : Room → m' α}, Rooms room room' →
    (∀ inside inside', Rooms inside inside' → Rel (f inside) (g inside')) →
    Rel (room.inside >>= f) (room'.inside >>= g)

section Related
variable {m m' : Type → Type} [Monad m] [MonadExceptOf EvalError m] [Monad m']
  [MonadExceptOf EvalError m'] (P : Parallel m m')

/-! ## Operators and integrals -/

theorem Parallel.applies (operator : Operator) (a b : Float) :
    P.Rel (operator.apply a b) (operator.apply a b) := by
  unfold Operator.apply
  split
  case h_4 | h_5 =>
    split
    · exact P.throws _
    · exact P.returns _
  case h_7 => exact P.throws _
  all_goals exact P.returns _

theorem Parallel.looksUp {name : String} {bindings bindings' : Bindings}
    (h : bindings.lookup name = bindings'.lookup name) :
    P.Rel (bindings.valueOf name) (bindings'.valueOf name) := by
  unfold Bindings.valueOf
  rw [h]
  split
  · exact P.returns _
  split
  · exact P.returns _
  · exact P.throws _

namespace Quadrature

theorem parallel_weightedSum {sample : ℕ → m (Option Float)} {sample' : ℕ → m' (Option Float)}
    (h : ∀ i, P.Rel (sample i) (sample' i)) (last count i : ℕ) (total : Float) :
    P.Rel (weightedSum sample last count i total) (weightedSum sample' last count i total) := by
  induction count generalizing i total with
  | zero => exact P.returns _
  | succ count ih =>
    refine P.binds (h i) fun y => ?_
    cases y with
    | none => exact P.returns _
    | some y => exact ih _ _

variable {fault : GridError → EvalError} {intervals : Int} {f : Float → m (Option Float)}
  {f' : Float → m' (Option Float)} (h : ∀ x, P.Rel (f x) (f' x))
include h

theorem parallel_simpson (a b : Float) :
    P.Rel (simpson fault intervals f a b) (simpson fault intervals f' a b) := by
  unfold simpson
  dsimp only
  split
  · exact P.throws _
  split
  · exact P.throws _
  · refine P.binds (parallel_weightedSum P (fun i => h _) _ _ _ _) fun total => ?_
    cases total with
    | none => exact P.returns _
    | some total => exact P.returns _

theorem parallel_integral (a b : Float) :
    P.Rel (integral fault intervals f a b) (integral fault intervals f' a b) := by
  unfold integral
  split
  · exact P.returns _
  split
  · exact P.returns _
  split
  · exact P.binds (parallel_simpson P h b a) fun v => P.returns _
  · exact parallel_simpson P h a b

end Quadrature

/-! ## One tree -/

variable {names : String → Prop} {limit : Room} {c c' : Calculus} {enter? : Option (Entry m)}
  {enter?' : Option (Entry m')}

/-- Two ways of entering user functions are related, for the functions that some names mean and bindings
that agree on the free names of the function entered. One of them may run out of calls before the other
only if that is related to everything. -/
def Parallel.Enters (names : String → Prop) (functions : FunctionTable) (limit : Room) :
    Option (Entry m) → Option (Entry m') → Prop
  | none, none => True
  | none, some _ => ∀ (name : String) (s : m' Float), P.Rel (throw (.callDepth name)) s
  | some _, none => False
  | some enter, some enter' => ∀ head definition, names head →
      functions.find? head = some definition →
        ∀ (room room' : Room) (bindings bindings' : Bindings) (x : Float), P.Rooms room room' →
          bindings.Agree (functions.Reads limit definition) bindings' →
            P.Rel (enter definition room bindings x) (enter' definition room' bindings' x)

theorem parallel_values {room room' : Room} {bindings bindings' : Bindings} {es : List Expr}
    (h : ∀ e ∈ es, P.Rel (e.value c enter? room bindings) (e.value c' enter?' room' bindings')) :
    P.Rel (Expr.values c enter? room bindings es) (Expr.values c' enter?' room' bindings' es) := by
  induction es with
  | nil =>
    rw [Expr.values, Expr.values]
    exact P.returns _
  | cons e es ih =>
    rw [Expr.values, Expr.values]
    refine P.binds (h e (List.mem_cons_self ..)) fun v => ?_
    exact P.binds (ih fun e' he' => h e' (List.mem_cons_of_mem _ he')) fun vs => P.returns _

/-- The two values of a tree are related. The induction is on the tree; an integrand is evaluated under
one binding more. -/
theorem Parallel.value (hfind : ∀ name, names name → c.functions.find? name = c'.functions.find? name)
    (hintervals : c.simpsonIntervals = c'.simpsonIntervals)
    (henter : P.Enters names c.functions limit enter? enter?') (e : Expr)
    (hheads : ∀ head ∈ e.heads, names head) {room room' : Room} (hroom : P.Rooms room room')
    {bindings bindings' : Bindings} (h : bindings.Agree (e.Reads c.functions limit) bindings') :
    P.Rel (e.value c enter? room bindings) (e.value c' enter?' room' bindings') := by
  induction e using Expr.induction generalizing room room' bindings bindings' with
  | number v =>
    rw [Expr.value, Expr.value]
    exact P.nests hroom fun _ _ _ => P.returns _
  | var name =>
    rw [Expr.value, Expr.value]
    exact P.nests hroom fun _ _ _ => P.looksUp (h name .var)
  | signed sign e ih =>
    rw [Expr.value, Expr.value]
    refine P.nests hroom fun _ _ hinside => ?_
    exact P.binds (ih hheads hinside (h.mono fun _ => .operand)) fun v => P.returns _
  | binary operator a b iha ihb =>
    have ha : ∀ head ∈ a.heads, names head := fun head hhead =>
      hheads head (List.mem_append_left _ hhead)
    have hb : ∀ head ∈ b.heads, names head := fun head hhead =>
      hheads head (List.mem_append_right _ hhead)
    rw [Expr.value, Expr.value]
    refine P.nests hroom fun _ _ hinside => ?_
    refine P.binds (iha ha hinside (h.mono fun _ => .left)) fun v => ?_
    exact P.binds (ihb hb hinside (h.mono fun _ => .right)) fun w => P.applies operator v w
  | call head es ih =>
    have hhead : names head := hheads head List.mem_cons_self
    have harguments : ∀ e ∈ es, ∀ name ∈ e.heads, names name := fun e he name hname =>
      hheads name (List.mem_cons_of_mem _ (Expr.heads_subset_allHeads he hname))
    have hdefines : c.functions.defines head = c'.functions.defines head := by
      rw [FunctionTable.defines, FunctionTable.defines, hfind head hhead]
    rw [Expr.value, Expr.value]
    dsimp only
    rw [← hintervals, ← hdefines, ← hfind head hhead]
    refine P.nests hroom fun _ _ hinside => P.nests hinside fun inner inner' hinner => ?_
    -- the name means the same in both: an integral, a user function or a built-in one
    split
    · next hintegral =>
      obtain ⟨rfl, hundefined⟩ := hintegral
      have hnone : c.functions.find? integralName = none := by
        simpa [FunctionTable.defines] using hundefined
      -- Only a call with three arguments reads anything.
      rcases es with _ | ⟨e, _ | ⟨a, _ | ⟨b, _ | ⟨d, es⟩⟩⟩⟩
      case cons.cons.cons.nil =>
        refine P.nests hinner fun bounds bounds' hbounds => ?_
        refine P.binds (ih a (by simp) (harguments a (by simp)) hbounds
          (h.mono fun _ => .lower hnone)) fun lower => ?_
        refine P.binds (ih b (by simp) (harguments b (by simp)) hbounds
          (h.mono fun _ => .upper hnone)) fun upper => ?_
        refine P.binds (Quadrature.parallel_integral P (fun x => ?_) lower upper) fun _ => P.returns _
        refine P.nests hbounds fun sample sample' hsample => P.samples ?_
        exact ih e (by simp) (harguments e (by simp)) hsample
          (Bindings.Agree.cons (h.mono fun _ hname => .integrand hnone hname.1 hname.2) x)
      all_goals exact P.throws _
    · cases hdefinition : c.functions.find? head with
      | some definition =>
        rcases es with _ | ⟨e, _ | ⟨d, es⟩⟩
        case cons.nil =>
          cases enter? with
          | none =>
            cases enter?' with
            | none => exact P.throws _
            | some enter' => exact henter head _
          | some enter =>
            cases enter?' with
            | none => exact henter.elim
            | some enter' =>
              refine P.binds (ih e (by simp) (harguments e (by simp)) hinner
                (h.mono fun _ => .argument hdefinition)) fun x => ?_
              refine henter head definition hhead hdefinition _ _ _ _ x hinner ?_
              refine h.mono fun name hname => ?_
              obtain ⟨⟨body, hbody, hreads⟩, hfree⟩ := hname
              exact .body hdefinition hbody hreads hfree
        all_goals exact P.throws _
      | none =>
        cases hbuiltin : builtin? head with
        | none => exact P.throws _
        | some builtin =>
          dsimp only
          split
          · refine P.binds (parallel_values P fun e he => ?_) fun vs => P.returns _
            exact ih e he (harguments e he) hinner (h.mono fun _ => .builtin hdefinition hbuiltin he)
          · exact P.throws _

/-! ## All calls -/

/-- Getting the body of a function is related for what may follow: that is related for the tree that the
body reads as. -/
def Parallel.Fetches (names : String → Prop) (functions : FunctionTable) (limit : Room)
    (fetch : Definition → Room → m Expr) (fetch' : Definition → Room → m' Expr) : Prop :=
  ∀ head definition, names head → functions.find? head = some definition →
    ∀ (room room' : Room), P.Rooms room room' → ∀ (f : Expr → m Float) (g : Expr → m' Float),
      (∀ body, functions.readWithin limit definition.body = .ok body → P.Rel (f body) (g body)) →
        P.Rel (fetch definition room >>= f) (fetch' definition room' >>= g)

/-- Functions of shared names are entered in related ways, with as many calls left, or with more where
running out of calls is related to everything. The body is one tree under both tables, and it calls
functions of shared names with one call less. -/
theorem Parallel.enter {fetch : Definition → Room → m Expr} {fetch' : Definition → Room → m' Expr}
    (hshares : c.functions.Shares names c'.functions)
    (hintervals : c.simpsonIntervals = c'.simpsonIntervals)
    (hfetch : P.Fetches names c.functions limit fetch fetch') (calls calls' : ℕ)
    (hcalls : calls = calls' ∨
      calls ≤ calls' ∧ ∀ (name : String) (s : m' Float), P.Rel (throw (.callDepth name)) s) :
    P.Enters names c.functions limit (c.enter? fetch calls) (c'.enter? fetch' calls') := by
  induction calls generalizing calls' with
  | zero =>
    cases calls' with
    | zero => trivial
    | succ calls' => exact (hcalls.resolve_left nofun).2
  | succ calls ih =>
    obtain ⟨calls', rfl⟩ : ∃ n, calls' = n + 1 := ⟨calls' - 1, by omega⟩
    have hless := ih calls' (hcalls.imp (by omega) fun h => ⟨by omega, h.2⟩)
    intro head definition hhead hfind room room' bindings bindings' x hroom hagree
    refine hfetch head definition hhead hfind room room' hroom _ _ fun body hbody => ?_
    have hheads : ∀ name ∈ body.heads, names name := fun name hname =>
      hshares.closed head definition hhead hfind name (heads_subset_of_readWithin hbody hname)
    refine P.value hshares.find?_eq hintervals hless body hheads hroom (Bindings.Agree.cons ?_ x)
    exact hagree.mono fun name hname => ⟨⟨body, hbody, hname.1⟩, hname.2⟩

end Related

/-! ## The same computation -/

/-- To be the same computation in the same room. -/
def Parallel.same (m : Type → Type) [Monad m] [MonadExceptOf EvalError m] : Parallel m m where
  Rel := Eq
  Rooms := Eq
  returns _ := rfl
  throws _ := rfl
  binds := by
    rintro _ _ r _ f g rfl h
    exact bind_congr h
  samples := by
    rintro r _ rfl
    rfl
  nests := by
    rintro _ room _ f g rfl h
    exact bind_congr fun inside => h inside inside rfl

end GraphCalc
