import GraphCalc.Proofs.Grammar.Room

/-! # Tokens that are one call

A list of tokens that starts with a callable name and its bracket can be read in two ways: as one
call, or as an operand that begins with a call and goes on behind it. If the bracket is closed by the
last token only, no part of the list ends an operand before, and the list is one call. Main notions:

* `Undivided`: no operand ends inside the list, its first token apart;
* `SumTakes.exists_arguments`: the arguments of an undivided list, and the room that they take.
-/

namespace GraphCalc.Grammar
set_option autoImplicit false

/-- No front part of the list is an expression, unless it is at most the first token. -/
def Undivided (callable : String → Bool) (tokens : List Token) : Prop :=
  ∀ ls us e, tokens = ls ++ us → us ≠ [] → IsSum callable ls e → ls.length ≤ 1

section Call
variable {callable : String → Bool} {name opening closing : String} {p q r n : Nat}
  {call inside : List Token} {e : Expr}

/-- An expression that ends inside the list is the name before the bracket. -/
theorem Undivided.front {t : Token} {ls us : List Token} (h : Undivided callable call)
    (hcall : call = ⟨.name, name, p⟩ :: ⟨.opening, opening, q⟩ :: inside)
    (hcut : call = ls ++ t :: us) (hfront : IsSum callable ls e) :
    ls = [⟨.name, name, p⟩] ∧ t.kind = .opening := by
  have hlength := h ls (t :: us) e hcut (List.cons_ne_nil t us) hfront
  obtain ⟨l, more, rfl⟩ := List.exists_cons_of_ne_nil (ne_nil_of_startsTerm hfront.starts)
  obtain rfl : more = [] := List.eq_nil_of_length_eq_zero (by simpa using hlength)
  rw [hcall] at hcut
  obtain ⟨rfl, hrest⟩ := List.cons.inj hcut
  obtain ⟨rfl, -⟩ := List.cons.inj hrest
  exact ⟨rfl, rfl⟩

variable (h : Undivided callable call) (hcallable : callable name = true) (hne : inside ≠ [])
  (hcall : call = ⟨.name, name, p⟩ :: ⟨.opening, opening, q⟩ ::
    (inside ++ [⟨.closing, closing, r⟩]))
include h hcallable hne hcall

omit h hcallable in
theorem AtomTakes.exists_arguments (htakes : AtomTakes callable n call e) :
    ∃ m es, n = m + 2 ∧ ArgumentsTake callable m inside es ∧ e = .call name es := by
  cases htakes with
  | number => simp at hcall
  | var => simp at hcall
  | group => simp at hcall
  | callEmpty =>
    have hlength := congrArg List.length hcall
    exact absurd (List.eq_nil_of_length_eq_zero (by simpa using hlength)) hne
  | @call m _ _ es _ _ _ _ _ _ hinside =>
    simp only [List.cons.injEq, Token.mk.injEq, true_and] at hcall
    obtain ⟨⟨rfl, -⟩, -, htail⟩ := hcall
    obtain ⟨rfl, -⟩ := List.append_inj' htail rfl
    exact ⟨m, es, rfl, hinside, rfl⟩

omit hcallable in
theorem PowerTakes.exists_arguments (htakes : PowerTakes callable n call e) :
    ∃ m es, n = m + 3 ∧ ArgumentsTake callable m inside es ∧ e = .call name es := by
  cases htakes with
  | atom hatom =>
    obtain ⟨m, es, rfl, harguments, rfl⟩ := hatom.exists_arguments hne hcall
    exact ⟨m, es, rfl, harguments, rfl⟩
  | power base _ =>
    have hfront := h.front hcall rfl (.product (.signed (.power (.atom base.isAtom))))
    exact absurd hfront.2 nofun

omit hcallable in
theorem SignedTakes.exists_arguments (htakes : SignedTakes callable n call e) :
    ∃ m es, n = m + 4 ∧ ArgumentsTake callable m inside es ∧ e = .call name es := by
  cases htakes with
  | sign => simp at hcall
  | power hpower =>
    obtain ⟨m, es, rfl, harguments, rfl⟩ := hpower.exists_arguments h hne hcall
    exact ⟨m, es, rfl, harguments, rfl⟩

theorem ProductTakes.exists_arguments (htakes : ProductTakes callable n call e) :
    ∃ m es, n = m + 5 ∧ ArgumentsTake callable m inside es ∧ e = .call name es := by
  cases htakes with
  | signed hsigned =>
    obtain ⟨m, es, rfl, harguments, rfl⟩ := hsigned.exists_arguments h hne hcall
    exact ⟨m, es, rfl, harguments, rfl⟩
  | join left _ _ =>
    have hfront := h.front hcall rfl (.product left.isProduct)
    exact absurd hfront.2 nofun
  | @juxtapose _ _ ls us _ _ left right hseam =>
    -- The bracket behind the name would start the second operand, which a callable name forbids.
    obtain ⟨t, us, rfl⟩ := List.exists_cons_of_ne_nil
      (ne_nil_of_startsTerm (startsTerm_of_startsOperand right.isPower.starts))
    obtain ⟨rfl, hkind⟩ := h.front hcall rfl (.product left.isProduct)
    obtain ⟨kind, text, place⟩ := t
    obtain rfl : kind = .opening := hkind
    exact absurd ⟨hcallable, rfl⟩ hseam.seam

theorem SumTakes.exists_arguments (htakes : SumTakes callable n call e) :
    ∃ m es, n = m + 6 ∧ ArgumentsTake callable m inside es ∧ e = .call name es := by
  cases htakes with
  | product hproduct =>
    obtain ⟨m, es, rfl, harguments, rfl⟩ := hproduct.exists_arguments h hcallable hne hcall
    exact ⟨m, es, rfl, harguments, rfl⟩
  | join left _ _ =>
    have hfront := h.front hcall rfl left.isSum
    exact absurd hfront.2 nofun

end Call

/-- A call takes six units more than its arguments. -/
theorem sumTakes_call {callable : String → Bool} {name opening closing : String} {p q r n : Nat}
    {inside : List Token} {es : List Expr} (hcallable : callable name = true)
    (h : ArgumentsTake callable n inside es) :
    SumTakes callable (n + 6) (⟨.name, name, p⟩ :: ⟨.opening, opening, q⟩ ::
      (inside ++ [⟨.closing, closing, r⟩])) (.call name es) :=
  .product (.signed (.power (.atom (.call hcallable h))))

end GraphCalc.Grammar
