import GraphCalc.Proofs.Grammar.LookAhead

/-! # Names in front of a bracket

The parser asks whether a name is callable only where an opening bracket follows it. So the tree of a
text, and the fault of a text that has none, depends on the callable names through the names that stand
there, and only these are called in the tree. Main notions and statements:

* `Token.heads`, `Token.calledIn`: the names in front of a bracket, among tokens and in a text;
* `Expr.heads`: the names called in a tree;
* `AgreeOn`: the two sets of callable names are the same at these names;
* `ReadsAlike.of_room`: all routines then answer alike, at every place among the tokens;
* `readWithin_of_agree`: so do readings of a whole text;
* `heads_subset_of_readWithin`: the names called in the tree of a text stand in front of a bracket in it.
-/

namespace GraphCalc
open GraphCalc.Parse GraphCalc.Token
set_option autoImplicit false

/-! ## The names -/

/-- The names that an opening bracket follows. -/
def Token.heads : List Token → List String
  | ⟨.name, name, _⟩ :: ⟨.opening, text, p⟩ :: rest => name :: heads (⟨.opening, text, p⟩ :: rest)
  | _ :: rest => heads rest
  | [] => []

/-- The names in a text that an opening bracket follows; none if the text has no tokens. -/
def Token.calledIn (text : String) : List String :=
  match scan text.toList with
  | .ok stream => heads stream.tokens
  | .error _ => []

mutual

/-- The names called in a tree. -/
def Expr.heads : Expr → List String
  | .number _ => []
  | .var _ => []
  | .signed _ operand => operand.heads
  | .binary _ left right => left.heads ++ right.heads
  | .call name arguments => name :: Expr.allHeads arguments

def Expr.allHeads : List Expr → List String
  | [] => []
  | e :: es => e.heads ++ Expr.allHeads es

end

theorem Expr.heads_subset_allHeads {e : Expr} {es : List Expr} (h : e ∈ es) :
    e.heads ⊆ Expr.allHeads es := by
  induction es with
  | nil => cases h
  | cons first es ih =>
    rw [Expr.allHeads]
    rcases List.mem_cons.mp h with rfl | h
    · exact List.subset_append_left _ _
    · exact List.Subset.trans (ih h) (List.subset_append_right _ _)

theorem Token.heads_subset_cons (t : Token) (ts : List Token) : heads ts ⊆ heads (t :: ts) := by
  rw [heads.eq_def (t :: ts)]
  split
  · next hcons =>
    obtain ⟨-, rfl⟩ := List.cons_eq_cons.mp hcons
    exact List.subset_cons_self _ _
  · next hcons =>
    obtain ⟨-, rfl⟩ := List.cons_eq_cons.mp hcons
    exact List.Subset.refl _
  · next hnil => cases hnil

theorem Token.heads_subset_append (ts us : List Token) : heads us ⊆ heads (ts ++ us) := by
  induction ts with
  | nil => exact List.Subset.refl _
  | cons t ts ih => exact List.Subset.trans ih (heads_subset_cons t (ts ++ us))

/-- Tokens that follow do not take a name away. -/
theorem Token.heads_subset_append_right (ts us : List Token) : heads ts ⊆ heads (ts ++ us) := by
  induction ts using heads.induct with
  | case1 name p text q rest ih =>
    rw [List.cons_append, List.cons_append, heads, heads]
    exact List.cons_subset_cons _ ih
  | case2 t rest hnot ih =>
    rw [heads.eq_2 _ _ hnot]
    exact List.Subset.trans ih (heads_subset_cons t (rest ++ us))
  | case3 => exact List.nil_subset _

theorem Token.heads_subset_of_isInfix {ts us : List Token} (h : ts <:+: us) : heads ts ⊆ heads us := by
  obtain ⟨before, after, rfl⟩ := h
  exact List.Subset.trans (heads_subset_append before ts)
    (heads_subset_append_right (before ++ ts) after)

namespace Grammar

/-! ## Reading with other callable names -/

/-- Two sets of callable names are the same at the names that a bracket follows. -/
def AgreeOn (callable callable' : String → Bool) (tokens : List Token) : Prop :=
  ∀ name ∈ heads tokens, callable name = callable' name

theorem AgreeOn.head {callable callable' : String → Bool} {tokens inside : List Token}
    {name text : String} {p q : ℕ} (h : AgreeOn callable callable' tokens)
    (hsuffix : ⟨.name, name, p⟩ :: ⟨.opening, text, q⟩ :: inside <:+ tokens) :
    callable name = callable' name := by
  refine h name (heads_subset_of_isInfix hsuffix.isInfix ?_)
  rw [heads]
  exact List.mem_cons_self

theorem Outcome.suffix {α : Type} {callable : String → Bool} {level : List Token → α → Prop}
    {short : Prop} {c : Cursor} {r : Except ParseError (Reading α)} {x : Reading α}
    (h : Outcome callable level short c r) (hx : r = .ok x) : x.2.ahead <:+ c.ahead := by
  rw [hx] at h
  obtain ⟨ts, -, hahead, -, -⟩ := h
  exact ⟨ts, hahead.symm⟩

section Alike
variable {callable callable' : String → Bool} {tokens : List Token} {finish room : ℕ}

/-- The next routine is started where the one before stopped, and that is what matters. -/
theorem bind_eq_of_ok {α β : Type} {r r' : Except ParseError (Reading α)}
    {f g : Reading α → Except ParseError (Reading β)} (h : r = r') (hf : ∀ x, r = .ok x → f x = g x) :
    r >>= f = r' >>= g := by
  subst h
  cases hr : r with
  | error e => rfl
  | ok x => exact hf x hr

theorem extend_eq_of_steps
    {more more' : Cursor → Option (Except ParseError (Reading (Operator × Expr)))}
    (hmore : ∀ c, c.ahead <:+ tokens → more c = more' c)
    (hsuffix : ∀ c x, more c = some (.ok x) → x.2.ahead <:+ c.ahead) (steps : ℕ) (left : Expr)
    {c : Cursor} (hc : c.ahead <:+ tokens) :
    extend more steps left c = extend more' steps left c := by
  induction steps generalizing left c with
  | zero => rfl
  | succ steps ih =>
    rw [extend, extend, ← hmore c hc]
    cases hr : more c with
    | none => rfl
    | some r =>
      refine bind_eq_of_ok rfl fun x hx => ih _ ?_
      exact (hsuffix c x (hx ▸ hr)).trans hc

theorem arguments_eq_of_argument {argument argument' : Cursor → Except ParseError (Reading Expr)}
    (hargument : ∀ c, c.ahead <:+ tokens → argument c = argument' c)
    (hsuffix : ∀ c x, argument c = .ok x → x.2.ahead <:+ c.ahead) (steps : ℕ) {c : Cursor}
    (hc : c.ahead <:+ tokens) :
    Parse.arguments finish argument steps c = Parse.arguments finish argument' steps c := by
  induction steps generalizing c with
  | zero => rfl
  | succ steps ih =>
    rw [arguments_eq, arguments_eq]
    split
    · rfl
    · refine bind_eq_of_ok (hargument c hc) fun x hx => ?_
      -- behind a comma the others are read, at a place that is still among the tokens
      unfold behindArgument
      split
      · next text p rest hd =>
        have hrest : rest <:+ x.2.ahead := hd ▸ List.suffix_cons _ _
        rw [ih (c := ⟨false, rest⟩) (hrest.trans ((hsuffix c x hx).trans hc))]
      · rfl

/-- All routines in a given room answer alike at every place among the tokens. -/
structure ReadsAlike (callable callable' : String → Bool) (tokens : List Token) (finish room : ℕ) :
    Prop where
  sum c : c.ahead <:+ tokens →
    Parse.sum callable finish room c = Parse.sum callable' finish room c
  product c : c.ahead <:+ tokens →
    Parse.product callable finish room c = Parse.product callable' finish room c
  signed c : c.ahead <:+ tokens →
    Parse.signed callable finish room c = Parse.signed callable' finish room c
  power c : c.ahead <:+ tokens →
    Parse.power callable finish room c = Parse.power callable' finish room c
  atom c : c.ahead <:+ tokens →
    Parse.atom callable finish room c = Parse.atom callable' finish room c
  bracketed c : c.ahead <:+ tokens →
    Parse.bracketed callable finish room c = Parse.bracketed callable' finish room c

theorem operator?_suffix {among : List Operator} {c : Cursor} {x : Operator × Cursor}
    (h : c.operator? among = some x) : x.2.ahead <:+ c.ahead := by
  obtain ⟨t, hahead, -⟩ := operator?_tail h
  exact hahead ▸ List.suffix_cons _ _

theorem sign?_suffix {c : Cursor} {x : Sign × Cursor} (h : c.sign? = some x) :
    x.2.ahead <:+ c.ahead := by
  obtain ⟨t, hahead, -⟩ := sign?_tail h
  exact hahead ▸ List.suffix_cons _ _

/-- An operand behind an operator, read by a routine that goes on. -/
theorem suffix_of_operand {α : Type} {level : List Token → α → Prop} {short : Prop} {c d : Cursor}
    {operator : Operator} {r : Except ParseError (Reading α)} {x : Reading (Operator × α)}
    (h : Outcome callable level short d r) (hd : d.ahead <:+ c.ahead)
    (hx : r >>= (fun y => pure ((operator, y.1), y.2)) = .ok x) : x.2.ahead <:+ c.ahead := by
  cases hr : r with
  | error e => simp [hr, bind, Except.bind] at hx
  | ok y =>
    simp only [hr, bind, Except.bind, pure, Except.pure, Except.ok.injEq] at hx
    rw [← hx]
    exact (h.suffix hr).trans hd

theorem sumStep_suffix {c : Cursor} {x : Reading (Operator × Expr)}
    (h : sumStep callable finish room c = some (.ok x)) : x.2.ahead <:+ c.ahead := by
  obtain ⟨⟨operator, d⟩, hoperator, hx⟩ := Option.map_eq_some_iff.mp h
  exact suffix_of_operand ((Sound.of_room room).product d) (operator?_suffix hoperator) hx

theorem productStep_suffix {c : Cursor} {x : Reading (Operator × Expr)}
    (h : productStep callable finish room c = some (.ok x)) : x.2.ahead <:+ c.ahead := by
  unfold productStep at h
  split at h
  · next operator d hoperator =>
    exact suffix_of_operand ((Sound.of_room room).signed d) (operator?_suffix hoperator)
      (Option.some.inj h)
  · split at h
    · exact suffix_of_operand ((Sound.of_room room).power c) List.suffix_rfl (Option.some.inj h)
    · cases h

/-! ### The levels -/

theorem ReadsAlike.sum_succ (h : ReadsAlike callable callable' tokens finish room) (c : Cursor)
    (hc : c.ahead <:+ tokens) :
    Parse.sum callable finish (room + 1) c = Parse.sum callable' finish (room + 1) c := by
  rw [Grammar.sum_succ, Grammar.sum_succ]
  refine bind_eq_of_ok (h.product c hc) fun x hx => ?_
  refine extend_eq_of_steps (fun d hd => ?_) (fun _ _ => sumStep_suffix) _ _
    ((((Sound.of_room room).product c).suffix hx).trans hc)
  refine Option.map_congr fun y hy => ?_
  dsimp only
  rw [h.product y.2 ((operator?_suffix hy).trans hd)]

theorem ReadsAlike.product_succ (h : ReadsAlike callable callable' tokens finish room) (c : Cursor)
    (hc : c.ahead <:+ tokens) :
    Parse.product callable finish (room + 1) c = Parse.product callable' finish (room + 1) c := by
  rw [Grammar.product_succ, Grammar.product_succ]
  refine bind_eq_of_ok (h.signed c hc) fun x hx => ?_
  refine extend_eq_of_steps (fun d hd => ?_) (fun _ _ => productStep_suffix) _ _
    ((((Sound.of_room room).signed c).suffix hx).trans hc)
  unfold productStep
  split
  · next operator d' hoperator => rw [h.signed d' ((operator?_suffix hoperator).trans hd)]
  · rw [h.power d hd]

theorem ReadsAlike.signed_succ (h : ReadsAlike callable callable' tokens finish room) (c : Cursor)
    (hc : c.ahead <:+ tokens) :
    Parse.signed callable finish (room + 1) c = Parse.signed callable' finish (room + 1) c := by
  rw [Parse.signed, Parse.signed]
  cases hsign : c.sign? with
  | none => exact h.power c hc
  | some x =>
    dsimp only
    rw [h.signed x.2 ((sign?_suffix hsign).trans hc)]

theorem ReadsAlike.power_succ (h : ReadsAlike callable callable' tokens finish room) (c : Cursor)
    (hc : c.ahead <:+ tokens) :
    Parse.power callable finish (room + 1) c = Parse.power callable' finish (room + 1) c := by
  rw [Parse.power, Parse.power]
  refine bind_eq_of_ok (h.atom c hc) fun x hx => ?_
  have hbase := (((Sound.of_room room).atom c).suffix hx).trans hc
  cases hoperator : x.2.operator? [.power] with
  | none => simp only [hoperator]
  | some y =>
    simp only [hoperator]
    rw [h.signed y.2 ((operator?_suffix hoperator).trans hbase)]

/-- The one place where a routine asks whether a name is callable. -/
theorem ReadsAlike.atom_succ (h : ReadsAlike callable callable' tokens finish room)
    (hagree : AgreeOn callable callable' tokens) (c : Cursor) (hc : c.ahead <:+ tokens) :
    Parse.atom callable finish (room + 1) c = Parse.atom callable' finish (room + 1) c := by
  obtain ⟨b, ahead⟩ := c
  unfold Parse.atom
  split
  · rfl
  · next name p rest hahead =>
    obtain rfl : ahead = _ := hahead
    split
    · next text q inside =>
      have hinside : inside <:+ tokens :=
        ((List.suffix_cons _ _).trans (List.suffix_cons _ _)).trans hc
      simp only [called_opening, hagree.head hc, h.bracketed ⟨false, inside⟩ hinside]
    · rfl
  · next text p rest hahead =>
    obtain rfl : ahead = _ := hahead
    rw [h.sum ⟨false, rest⟩ ((List.suffix_cons _ _).trans hc)]
  · rfl

theorem ReadsAlike.bracketed_succ (h : ReadsAlike callable callable' tokens finish room) (c : Cursor)
    (hc : c.ahead <:+ tokens) :
    Parse.bracketed callable finish (room + 1) c =
      Parse.bracketed callable' finish (room + 1) c := by
  unfold Parse.bracketed
  split
  · rfl
  · exact arguments_eq_of_argument h.sum
      (fun d _ hx => ((Sound.of_room room).sum d).suffix hx) _ hc

theorem ReadsAlike.of_room (hagree : AgreeOn callable callable' tokens) :
    ∀ room, ReadsAlike callable callable' tokens finish room
  | 0 => ⟨fun _ _ => rfl, fun _ _ => rfl, fun _ _ => rfl, fun _ _ => rfl, fun _ _ => rfl,
      fun _ _ => rfl⟩
  | room + 1 =>
    have h := ReadsAlike.of_room hagree room
    ⟨h.sum_succ, h.product_succ, h.signed_succ, h.power_succ, h.atom_succ hagree, h.bracketed_succ⟩

theorem parseWithin_of_agree {stream : Token.Stream}
    (hagree : AgreeOn callable callable' stream.tokens) :
    Expr.parseWithin room callable stream = Expr.parseWithin room callable' stream := by
  unfold Expr.parseWithin
  rw [(ReadsAlike.of_room hagree room).sum ⟨false, stream.tokens⟩ List.suffix_rfl]

end Alike

/-! ## Calls in a tree -/

section Calls
variable {callable : String → Bool} {names names' : List String} {ts us ws : List Token}

theorem append_subset_heads (hts : names ⊆ heads ts) (hus : names' ⊆ heads us) (hleft : ts <+: ws)
    (hright : us <:+ ws) : names ++ names' ⊆ heads ws :=
  List.append_subset.mpr
    ⟨List.Subset.trans hts (heads_subset_of_isInfix hleft.isInfix),
      List.Subset.trans hus (heads_subset_of_isInfix hright.isInfix)⟩

theorem suffix_append_cons (ts us : List Token) (t : Token) : us <:+ ts ++ t :: us :=
  (List.suffix_cons t us).trans (List.suffix_append ts _)

theorem subset_heads_of_bracketed (h : names ⊆ heads ts) (t u : Token) :
    names ⊆ heads (t :: (ts ++ [u])) :=
  List.Subset.trans h (heads_subset_of_isInfix ⟨[t], [u], rfl⟩)

mutual

/-- A name is called in the tree of a sum only where a bracket follows it. -/
theorem IsSum.heads_subset {ts : List Token} {e : Expr} :
    IsSum callable ts e → e.heads ⊆ heads ts
  | .product h => h.heads_subset
  | .join left _ right => append_subset_heads left.heads_subset right.heads_subset
      (List.prefix_append _ _) (suffix_append_cons _ _ _)

theorem IsProduct.heads_subset {ts : List Token} {e : Expr} :
    IsProduct callable ts e → e.heads ⊆ heads ts
  | .signed h => h.heads_subset
  | .join left _ right => append_subset_heads left.heads_subset right.heads_subset
      (List.prefix_append _ _) (suffix_append_cons _ _ _)
  | .juxtapose left right _ => append_subset_heads left.heads_subset right.heads_subset
      (List.prefix_append _ _) (List.suffix_append _ _)

theorem IsSigned.heads_subset {ts : List Token} {e : Expr} :
    IsSigned callable ts e → e.heads ⊆ heads ts
  | .sign _ operand => List.Subset.trans operand.heads_subset (heads_subset_cons _ _)
  | .power h => h.heads_subset

theorem IsPower.heads_subset {ts : List Token} {e : Expr} :
    IsPower callable ts e → e.heads ⊆ heads ts
  | .atom h => h.heads_subset
  | .power base exponent => append_subset_heads base.heads_subset exponent.heads_subset
      (List.prefix_append _ _) (suffix_append_cons _ _ _)

theorem IsAtom.heads_subset {ts : List Token} {e : Expr} :
    IsAtom callable ts e → e.heads ⊆ heads ts
  | .number => List.nil_subset _
  | .var => List.nil_subset _
  | .group inside => subset_heads_of_bracketed inside.heads_subset _ _
  | .callEmpty _ => by
      rw [heads]
      exact List.cons_subset_cons _ (List.nil_subset _)
  | .call _ inside => by
      rw [heads]
      exact List.cons_subset_cons _ (subset_heads_of_bracketed inside.heads_subset _ _)

theorem AreArguments.heads_subset {ts : List Token} {es : List Expr} :
    AreArguments callable ts es → Expr.allHeads es ⊆ heads ts
  | .last h => by
      rw [Expr.allHeads, Expr.allHeads, List.append_nil]
      exact h.heads_subset
  | .more first others => append_subset_heads first.heads_subset others.heads_subset
      (List.prefix_append _ _) (suffix_append_cons _ _ _)

end

end Calls
end Grammar

/-! ## Texts -/

section Texts
variable {callable callable' : String → Bool} {text : String} {room : ℕ}

/-- A text is read alike, be it as a tree or with a fault, with any callable names that are the same
at the names in front of a bracket. -/
theorem readWithin_of_agree (h : ∀ name ∈ calledIn text, callable name = callable' name) :
    Expr.readWithin room callable text = Expr.readWithin room callable' text := by
  unfold Expr.readWithin
  cases hscan : scan text.toList with
  | error e => rfl
  | ok stream =>
    rw [calledIn, hscan] at h
    exact Grammar.parseWithin_of_agree h

theorem heads_subset_of_readWithin {e : Expr} (h : Expr.readWithin room callable text = .ok e) :
    e.heads ⊆ calledIn text := by
  unfold Expr.readWithin at h
  unfold calledIn
  cases hscan : scan text.toList with
  | error error =>
    rw [hscan] at h
    cases h
  | ok stream =>
    rw [hscan] at h
    exact (Grammar.isSum_of_parseWithin h).heads_subset

end Texts
end GraphCalc
