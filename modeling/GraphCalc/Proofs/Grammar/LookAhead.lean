import GraphCalc.Proofs.Grammar.Local

/-! # How far the parser looks ahead

The answers of the parser are local, at each of its levels. So alike token lists have the same tree,
and where a list is refused, no way to go on behind the token at the fault can help. Main notions and
statements:

* `Passes c d`: what a routine or a step of a loop reads has at least one token;
* `AllLocal.of_room`: the answers of all routines are local;
* `refused_of_alike`: what is alike up to the fault is refused as well;
* `parseWithin_of_alike`: alike token lists have the same tree, or none.

Names may differ by a function that keeps callable names and takes no other name to one.
-/

namespace GraphCalc.Grammar
open GraphCalc.Parse GraphCalc.Token
set_option autoImplicit false

/-! ## Passing over tokens -/

/-- From the cursor `c` to the cursor `d` there is at least one token, and `d` knows of the last one whether
it is a number. -/
def Passes (c d : Cursor) : Prop :=
  ∃ ts, ts ≠ [] ∧ c.ahead = ts ++ d.ahead ∧ d.afterNumber = endsInNumber ts

section Passing
variable {α : Type} {callable : String → Bool} {finish room : ℕ} {level : List Token → α → Prop}
  {short : Prop} {c d d' : Cursor}

theorem Passes.trans (h : Passes c d) (h' : Passes d d') : Passes c d' := by
  obtain ⟨ts, -, hc, -⟩ := h
  obtain ⟨us, hus, hd, hnumber⟩ := h'
  refine ⟨ts ++ us, by simp [hus], by rw [hc, hd, List.append_assoc], ?_⟩
  rw [hnumber, endsInNumber_append hus]

theorem Passes.shorter (h : Passes c d) : d.ahead.length < c.ahead.length := by
  obtain ⟨ts, hts, hc, -⟩ := h
  have hpos := List.length_pos_iff.mpr hts
  rw [hc, List.length_append]
  omega

theorem passes_operator {among : List Operator} {operator : Operator}
    (h : c.operator? among = some (operator, d)) : Passes c d := by
  obtain ⟨-, hnumber, p, hahead⟩ := operator?_eq_some h
  exact ⟨[⟨.operator, operator.symbol, p⟩], by simp, hahead, hnumber⟩

/-- A routine that reads something passes over it. -/
theorem Outcome.passes {r : Except ParseError (Reading α)} {x : Reading α}
    (h : Outcome callable level short c r) (hne : ∀ ts a, level ts a → ts ≠ []) (hx : r = .ok x) :
    Passes c x.2 := by
  rw [hx] at h
  obtain ⟨ts, hts, hahead, hnumber, -⟩ := h
  exact ⟨ts, hne ts x.1 hts, hahead, hnumber⟩

theorem sum_passes {x : Reading Expr} (h : Parse.sum callable finish room c = .ok x) : Passes c x.2 :=
  (sum_outcome c).passes (fun _ _ hts => hts.ne_nil) h

theorem product_passes {x : Reading Expr} (h : Parse.product callable finish room c = .ok x) :
    Passes c x.2 :=
  ((Sound.of_room room).product c).passes (fun _ _ hts => hts.ne_nil) h

theorem signed_passes {x : Reading Expr} (h : Parse.signed callable finish room c = .ok x) :
    Passes c x.2 :=
  ((Sound.of_room room).signed c).passes (fun _ _ hts => hts.ne_nil) h

theorem power_passes {x : Reading Expr} (h : Parse.power callable finish room c = .ok x) :
    Passes c x.2 :=
  ((Sound.of_room room).power c).passes (fun _ _ hts => hts.ne_nil) h

/-! ### Steps of the loops -/

variable {operator : Operator} {r : Except ParseError (Reading Expr)} {x : Reading (Operator × Expr)}

/-- What a step reads behind its operator is what it stops behind. -/
theorem passes_of_step (h : (r >>= fun y => pure ((operator, y.1), y.2)) = .ok x)
    (hr : ∀ y, r = .ok y → Passes d y.2) : Passes d x.2 := by
  cases r with
  | error e => cases h
  | ok y =>
    cases h
    exact hr y rfl

theorem sumStep_passes (h : sumStep callable finish room c = some (.ok x)) : Passes c x.2 := by
  obtain ⟨y, hy, hread⟩ := Option.map_eq_some_iff.mp h
  exact (passes_operator hy).trans (passes_of_step hread fun _ => product_passes)

theorem productStep_passes (h : productStep callable finish room c = some (.ok x)) : Passes c x.2 := by
  unfold productStep at h
  split at h
  · next operator d hy =>
    exact (passes_operator hy).trans (passes_of_step (Option.some.inj h) fun _ => signed_passes)
  · split at h
    · exact passes_of_step (Option.some.inj h) fun _ => power_passes
    · cases h

theorem advances_sumStep : Advances (sumStep callable finish room) :=
  ⟨fun _ => rfl, fun _ _ h => (sumStep_passes h).shorter⟩

theorem advances_productStep : Advances (productStep callable finish room) :=
  ⟨fun _ => rfl, fun _ _ h => (productStep_passes h).shorter⟩

end Passing

/-! ## The levels -/

/-- The answers of all routines in a given room are local. -/
structure AllLocal (callable : String → Bool) (f : String → String) (finish finish' room : ℕ) :
    Prop where
  sum c : Local f (Expr.mapVars f) finish c (Parse.sum callable finish room c)
    (Parse.sum callable finish' room)
  product c : Local f (Expr.mapVars f) finish c (Parse.product callable finish room c)
    (Parse.product callable finish' room)
  signed c : Local f (Expr.mapVars f) finish c (Parse.signed callable finish room c)
    (Parse.signed callable finish' room)
  power c : Local f (Expr.mapVars f) finish c (Parse.power callable finish room c)
    (Parse.power callable finish' room)
  atom c : Local f (Expr.mapVars f) finish c (Parse.atom callable finish room c)
    (Parse.atom callable finish' room)
  bracketed c : Local f (Expr.mapVarsAll f) finish c (Parse.bracketed callable finish room c)
    (Parse.bracketed callable finish' room)

section Levels
variable {callable : String → Bool} {f : String → String} {finish finish' room : ℕ}

theorem AllLocal.sumStep (h : AllLocal callable f finish finish' room) (c : Cursor) :
    StepsAlike f finish (Grammar.sumStep callable finish room)
      (Grammar.sumStep callable finish' room) c := by
  cases hoperator : c.operator? [.add, .subtract] with
  | none =>
    refine .stop (by rw [Grammar.sumStep, hoperator]; rfl) fun ts hts => ?_
    rw [Grammar.sumStep, operator?_sameHead hts, hoperator]
    rfl
  | some x =>
    obtain ⟨t, hahead, hnumber⟩ := operator?_tail hoperator
    refine .step (by rw [Grammar.sumStep, hoperator]; rfl) (fun ts hts => ?_)
      (((h.product x.2).map (u := (x.1, ·)) (v := (x.1, ·)) fun _ => rfl).behind hahead hnumber)
    rw [Grammar.sumStep, operator?_sameHead hts, hoperator]
    rfl

theorem AllLocal.productStep (h : AllLocal callable f finish finish' room) (c : Cursor) :
    StepsAlike f finish (Grammar.productStep callable finish room)
      (Grammar.productStep callable finish' room) c := by
  cases hoperator : c.operator? [.multiply, .divide, .modulo] with
  | some x =>
    obtain ⟨t, hahead, hnumber⟩ := operator?_tail hoperator
    refine .step (by rw [Grammar.productStep, hoperator]) (fun ts hts => ?_)
      (((h.signed x.2).map (u := (x.1, ·)) (v := (x.1, ·)) fun _ => rfl).behind hahead hnumber)
    rw [Grammar.productStep, operator?_sameHead hts, hoperator]
    rfl
  | none =>
    cases hjuxtaposed : c.juxtaposed with
    | true =>
      refine .step (by rw [Grammar.productStep, hoperator, hjuxtaposed]; rfl) (fun ts hts => ?_)
        ((h.power c).map (u := (Operator.multiply, ·)) (v := (Operator.multiply, ·)) fun _ => rfl)
      rw [Grammar.productStep, operator?_sameHead hts, hoperator]
      simp only [Option.map_none, juxtaposed_sameHead hts, hjuxtaposed, if_true]
    | false =>
      refine .stop (by rw [Grammar.productStep, hoperator, hjuxtaposed]; rfl) fun ts hts => ?_
      rw [Grammar.productStep, operator?_sameHead hts, hoperator]
      simp [juxtaposed_sameHead hts, hjuxtaposed]

theorem AllLocal.sum_succ (h : AllLocal callable f finish finish' room) (c : Cursor) :
    Local f (Expr.mapVars f) finish c (Parse.sum callable finish (room + 1) c)
      (Parse.sum callable finish' (room + 1)) :=
  (h.product c).bind fun left d _ =>
    .loop advances_sumStep advances_sumStep h.sumStep left d

theorem AllLocal.product_succ (h : AllLocal callable f finish finish' room) (c : Cursor) :
    Local f (Expr.mapVars f) finish c (Parse.product callable finish (room + 1) c)
      (Parse.product callable finish' (room + 1)) :=
  (h.signed c).bind fun left d _ =>
    .loop advances_productStep advances_productStep h.productStep left d

theorem AllLocal.signed_succ (h : AllLocal callable f finish finish' room) (c : Cursor) :
    Local f (Expr.mapVars f) finish c (Parse.signed callable finish (room + 1) c)
      (Parse.signed callable finish' (room + 1)) := by
  rw [Parse.signed]
  cases hsign : c.sign? with
  | none =>
    refine (h.power c).congr fun ts hts => ?_
    rw [Parse.signed, sign?_sameHead hts, hsign]
    rfl
  | some x =>
    obtain ⟨t, hahead, hnumber⟩ := sign?_tail hsign
    refine (((h.signed x.2).map (u := Expr.signed x.1) (v := Expr.signed x.1) fun _ => rfl).behind
      hahead hnumber).congr fun ts hts => ?_
    rw [Parse.signed, sign?_sameHead hts, hsign]
    rfl

theorem AllLocal.power_succ (h : AllLocal callable f finish finish' room) (c : Cursor) :
    Local f (Expr.mapVars f) finish c (Parse.power callable finish (room + 1) c)
      (Parse.power callable finish' (room + 1)) := by
  refine (h.atom c).bind fun base d _ => ?_
  cases hoperator : d.operator? [.power] with
  | none =>
    simp only [hoperator]
    refine (Local.done base).congr fun ts hts => ?_
    simp only [operator?_sameHead hts, hoperator]
    rfl
  | some x =>
    obtain ⟨t, hahead, hnumber⟩ := operator?_tail hoperator
    simp only [hoperator]
    refine (((h.signed x.2).map (u := Expr.binary x.1 base) (v := Expr.binary x.1 (base.mapVars f))
      fun _ => rfl).behind hahead hnumber).congr fun ts hts => ?_
    simp only [operator?_sameHead hts, hoperator]
    rfl

theorem AllLocal.bracketed_succ (h : AllLocal callable f finish finish' room) (c : Cursor) :
    Local f (Expr.mapVarsAll f) finish c (Parse.bracketed callable finish (room + 1) c)
      (Parse.bracketed callable finish' (room + 1)) := by
  have harguments : Local f (Expr.mapVarsAll f) finish c
      (Parse.arguments finish (Parse.sum callable finish room) (c.ahead.length + 1) c)
      fun c' => Parse.arguments finish' (Parse.sum callable finish' room) (c'.ahead.length + 1) c' :=
    .arguments (fun _ _ hx => (sum_passes hx).shorter) (fun _ _ hx => (sum_passes hx).shorter) h.sum c
  obtain ⟨b, ahead⟩ := c
  cases ahead with
  | nil => exact harguments.congr fun ts hts => by rw [hts.eq_nil]; rfl
  | cons t rest =>
    obtain ⟨kind, text, p⟩ := t
    cases kind with
    | closing =>
      refine Local.congr (Local.skip (Local.done (c := ⟨false, rest⟩) [])) fun ts hts => ?_
      obtain ⟨text', p', us, rfl, -⟩ := hts.eq_cons
      rfl
    | _ =>
      refine harguments.congr fun ts hts => ?_
      obtain ⟨text', p', us, rfl, -⟩ := hts.eq_cons
      rfl

/-- Reading on behind a name. -/
def behindName (callable : String → Bool) (finish room : ℕ) (name : String) (c : Cursor) :
    Except ParseError (Reading Expr) :=
  match c.ahead with
  | ⟨.opening, _, _⟩ :: _ =>
    if callable name then
      called finish (Parse.bracketed callable finish room) ⟨false, c.ahead⟩ >>= fun x =>
        pure (.call name x.1, x.2)
    else .ok (.var name, ⟨false, c.ahead⟩)
  | _ => .ok (.var name, ⟨false, c.ahead⟩)

variable (hcallable : ∀ name, callable (f name) = callable name)
  (hkeep : ∀ name, callable name = true → f name = name)

include hcallable hkeep in
/-- A callable name is kept and no other becomes callable, so the two are heads of calls or none is. -/
theorem AllLocal.behindName (h : AllLocal callable f finish finish' room) (name : String)
    (rest : List Token) : Local f (Expr.mapVars f) finish ⟨false, rest⟩
      (Grammar.behindName callable finish room name ⟨false, rest⟩)
      (Grammar.behindName callable finish' room (f name)) := by
  have hvar : Local f (Expr.mapVars f) finish ⟨false, rest⟩ (.ok (.var name, ⟨false, rest⟩))
      fun c' => .ok (.var (f name), c') := Local.done (Expr.var name)
  cases rest with
  | nil => exact hvar.congr fun ts hts => by rw [hts.eq_nil]; rfl
  | cons t rest =>
    obtain ⟨kind, text, p⟩ := t
    cases kind with
    | opening =>
      unfold Grammar.behindName
      cases hname : callable name with
      | true =>
        have hcall := (h.bracketed ⟨false, rest⟩).map (k := Expr.mapVars f) (u := Expr.call name)
          (v := Expr.call name) fun _ => rfl
        refine hcall.skip.congr fun ts hts => ?_
        obtain ⟨text', p', us, rfl, -⟩ := hts.eq_cons
        simp only [hkeep name hname, hname, if_true]
        rfl
      | false =>
        refine hvar.congr fun ts hts => ?_
        obtain ⟨text', p', us, rfl, -⟩ := hts.eq_cons
        simp only [hcallable, hname]
        rfl
    | _ =>
      refine hvar.congr fun ts hts => ?_
      obtain ⟨text', p', us, rfl, -⟩ := hts.eq_cons
      rfl

include hcallable hkeep in
theorem AllLocal.atom_succ (h : AllLocal callable f finish finish' room) (c : Cursor) :
    Local f (Expr.mapVars f) finish c (Parse.atom callable finish (room + 1) c)
      (Parse.atom callable finish' (room + 1)) := by
  obtain ⟨b, ahead⟩ := c
  cases ahead with
  | nil =>
    refine .refuse rfl fun ts hts => ?_
    rw [hts.eq_nil]
    exact ⟨_, rfl, rfl⟩
  | cons t rest =>
    obtain ⟨kind, text, p⟩ := t
    cases kind with
    | number value =>
      refine Local.congr (Local.skip (Local.done (c := ⟨true, rest⟩) (Expr.number value))) fun ts hts => ?_
      obtain ⟨text', p', us, rfl, -⟩ := hts.eq_cons
      rfl
    | name =>
      refine (h.behindName hcallable hkeep text rest).skip.congr fun ts hts => ?_
      obtain ⟨text', p', us, rfl, htext⟩ := hts.eq_cons
      rw [htext, if_pos rfl]
      rfl
    | opening =>
      have hinner := (h.sum ⟨false, rest⟩).bind (k := Expr.mapVars f)
        (y := fun x => x.2.close finish .closing >>= fun d => pure (x.1, d))
        (w := fun x => x.2.close finish' .closing >>= fun d => pure (x.1, d))
        fun inner d _ => .close .closing inner
      refine hinner.skip.congr fun ts hts => ?_
      obtain ⟨text', p', us, rfl, -⟩ := hts.eq_cons
      rfl
    | _ =>
      refine .refuse rfl fun ts hts => ?_
      obtain ⟨text', p', us, rfl, -⟩ := hts.eq_cons
      exact ⟨_, rfl, rfl⟩

include hcallable hkeep in
theorem AllLocal.of_room : ∀ room, AllLocal callable f finish finish' room
  | 0 =>
    { sum := fun _ => .refuse rfl fun _ _ => ⟨_, rfl, rfl⟩
      product := fun _ => .refuse rfl fun _ _ => ⟨_, rfl, rfl⟩
      signed := fun _ => .refuse rfl fun _ _ => ⟨_, rfl, rfl⟩
      power := fun _ => .refuse rfl fun _ _ => ⟨_, rfl, rfl⟩
      atom := fun _ => .refuse rfl fun _ _ => ⟨_, rfl, rfl⟩
      bracketed := fun _ => .refuse rfl fun _ _ => ⟨_, rfl, rfl⟩ }
  | room + 1 =>
    have h := AllLocal.of_room room
    ⟨h.sum_succ, h.product_succ, h.signed_succ, h.power_succ, h.atom_succ hcallable hkeep,
      h.bracketed_succ⟩

end Levels

/-! ## Whole token lists -/

section Whole
variable {callable : String → Bool} {f : String → String} {finish finish' room : ℕ}

/-- The reading of a sum with nothing behind it. -/
def atEnd (x : Reading Expr) : Except ParseError (Reading Expr) :=
  match x.2.ahead with
  | [] => .ok x
  | token :: _ => .error (.unexpected (some token.text) token.position)

def readWhole (callable : String → Bool) (finish room : ℕ) (c : Cursor) :
    Except ParseError (Reading Expr) :=
  if c.ahead.isEmpty then .error (.empty finish) else Parse.sum callable finish room c >>= atEnd

theorem parseWithin_eq (stream : Token.Stream) : Expr.parseWithin room callable stream =
    (readWhole callable stream.finish room ⟨false, stream.tokens⟩).map Prod.fst := by
  unfold Expr.parseWithin readWhole
  dsimp only
  split
  · rfl
  · cases Parse.sum callable stream.finish room ⟨false, stream.tokens⟩ with
    | error e => rfl
    | ok x =>
      obtain ⟨e, b, ahead⟩ := x
      cases ahead <;> rfl

/-- Whether anything is left depends on the next token only. -/
theorem atEnd_local (e : Expr) (d : Cursor) :
    Local f (Expr.mapVars f) finish d (atEnd (e, d)) fun c' => atEnd (e.mapVars f, c') := by
  obtain ⟨b, ahead⟩ := d
  cases ahead with
  | nil => exact (Local.done e).congr fun ts hts => by rw [hts.eq_nil]; rfl
  | cons t rest =>
    refine .refuse rfl fun ts hts => ?_
    obtain ⟨text', p', us, rfl, -⟩ := hts.eq_cons
    exact ⟨_, rfl, rfl⟩

section Names
variable (hcallable : ∀ name, callable (f name) = callable name)
  (hkeep : ∀ name, callable name = true → f name = name)
include hcallable hkeep

theorem readWhole_local (finish finish' room : ℕ) (c : Cursor) :
    Local f (Expr.mapVars f) finish c (readWhole callable finish room c)
      (readWhole callable finish' room) := by
  have hall : AllLocal callable f finish finish' room := .of_room hcallable hkeep room
  have hwhole := (hall.sum c).bind (y := atEnd) (w := atEnd) fun e d _ => atEnd_local e d
  obtain ⟨b, ahead⟩ := c
  cases ahead with
  | nil =>
    refine .refuse rfl fun ts hts => ?_
    rw [hts.eq_nil]
    exact ⟨_, rfl, rfl⟩
  | cons t rest =>
    refine hwhole.congr fun ts hts => ?_
    obtain ⟨text', p', us, rfl, -⟩ := hts.eq_cons
    rfl

variable {stream stream' : Token.Stream}

/-- A refusal is reported at one of the tokens or at the end, and whatever is alike up to that token is
refused as well, for the same kind of reason. -/
theorem refused_of_alike {e : ParseError} (h : Expr.parseWithin room callable stream = .error e) :
    ∃ us rest, stream.tokens = us ++ rest ∧ e.position = place stream.finish rest ∧
      ∀ us' rest', List.Forall₂ (Alike f) us us' → SameHead f rest rest' →
        ∃ e', Expr.parseWithin room callable ⟨us' ++ rest', stream.finish⟩ = .error e' ∧
          e'.isNesting = e.isNesting := by
  have hlocal := readWhole_local hcallable hkeep stream.finish stream.finish room ⟨false, stream.tokens⟩
  rw [parseWithin_eq] at h
  cases hread : readWhole callable stream.finish room ⟨false, stream.tokens⟩ with
  | ok x => rw [hread] at h; cases h
  | error e' =>
    rw [hread] at h hlocal
    cases h
    obtain ⟨us, rest, htokens, hplace, hlike⟩ := hlocal
    refine ⟨us, rest, htokens, hplace, fun us' rest' hus hrest => ?_⟩
    obtain ⟨e', he', hdeep⟩ := hlike us' rest' hus hrest
    exact ⟨e', by rw [parseWithin_eq, he']; rfl, hdeep⟩

/-- Alike token lists have the same tree, up to the names, or both have none. -/
theorem parseWithin_of_alike (h : List.Forall₂ (Alike f) stream.tokens stream'.tokens) :
    match Expr.parseWithin room callable stream with
    | .ok e => Expr.parseWithin room callable stream' = .ok (e.mapVars f)
    | .error e => ∃ e', Expr.parseWithin room callable stream' = .error e' ∧
      e'.isNesting = e.isNesting := by
  have hlocal := readWhole_local hcallable hkeep stream.finish stream'.finish room ⟨false, stream.tokens⟩
  -- The list is cut at the same place as the one it is alike to.
  have hcut {us rest : List Token} (htokens : stream.tokens = us ++ rest) : ∃ us' rest',
      stream'.tokens = us' ++ rest' ∧ List.Forall₂ (Alike f) us us' ∧ SameHead f rest rest' := by
    rw [htokens] at h
    obtain ⟨us', rest', htokens', hus, hrest⟩ := exists_of_forall₂_append h
    refine ⟨us', rest', htokens', hus, ?_⟩
    have hhead := SameHead.append hrest (show SameHead f [] [] from .none)
    rwa [List.append_nil, List.append_nil] at hhead
  rw [parseWithin_eq, parseWithin_eq]
  cases hread : readWhole callable stream.finish room ⟨false, stream.tokens⟩ with
  | ok x =>
    rw [hread] at hlocal
    obtain ⟨us, htokens, hlike⟩ := hlocal
    obtain ⟨us', rest', htokens', hus, hrest⟩ := hcut htokens
    have hread' := hlike us' rest' hus hrest
    rw [← htokens'] at hread'
    dsimp only [Except.map]
    rw [hread']
  | error e =>
    rw [hread] at hlocal
    obtain ⟨us, rest, htokens, -, hlike⟩ := hlocal
    obtain ⟨us', rest', htokens', hus, hrest⟩ := hcut htokens
    obtain ⟨e', hread', hdeep⟩ := hlike us' rest' hus hrest
    rw [← htokens'] at hread'
    exact ⟨e', by rw [hread']; rfl, hdeep⟩

end Names

/-- Token lists that differ in their places only have the same tree. -/
theorem parseWithin_of_same {stream stream' : Token.Stream} {e : Expr}
    (h : List.Forall₂ (Alike id) stream.tokens stream'.tokens)
    (hparse : Expr.parseWithin room callable stream = .ok e) :
    Expr.parseWithin room callable stream' = .ok e := by
  have hcallable : ∀ name, callable (id name) = callable name := fun _ => rfl
  have hkeep : ∀ name, callable name = true → id name = name := fun _ _ => rfl
  have halike := @parseWithin_of_alike callable id room hcallable hkeep stream stream' h
  rw [hparse] at halike
  exact halike.trans (congrArg Except.ok e.mapVars_id)

end Whole
end GraphCalc.Grammar
