import GraphCalc.Eval.Definition
import GraphCalc.Proofs.Grammar.Basic
import GraphCalc.Proofs.Text.Brackets

/-! # Calls that look like integrals

The search for integrals knows one by the letters `int` with a bracket right behind them, the parser by
the name of a call. What the search has found it passes over as a whole, so the calls inside an integral
that is found may look as they like. Since the operands of an expression close the brackets that they
open, no such integral starts in one operand and ends in another. Main notions:

* `Recognizable`: outside the integrals that are found, the calls with three arguments that look like
  integrals are the integrals;
* `recognizable_of_isChain`: it is enough to look at each name with a bracket behind it;
* `brackets`: the brackets of a list of tokens; those of an operand are balanced;
* `Recognizable.left`, `Recognizable.right`, `Recognizable.sides`, `Recognizable.bracketed`: the operands
  of what is recognizable are so too;
* `Recognizable.call`: a recognizable call is an integral that is found, or its arguments are
  recognizable.
-/

namespace GraphCalc.IntegralCall
open GraphCalc.Text GraphCalc.Token GraphCalc.Grammar
set_option autoImplicit false

section Start
variable (callable : String → Bool)

/-- If the tokens start with a call with three arguments of a name that ends in `int`, then the bracket is
right behind the name if and only if the name is `int`. -/
def StartsRecognizably (tokens : List Token) : Prop :=
  ∀ name p opening q inside closing r after es,
    tokens = ⟨.name, name, p⟩ :: ⟨.opening, opening, q⟩ ::
      (inside ++ ⟨.closing, closing, r⟩ :: after) →
    AreArguments callable inside es → es.length = 3 → integralName.toList <:+ name.toList →
    (q = p + name.length ↔ name = integralName)

/-- Among the calls with three arguments of a name that ends in `int`, those with the bracket right
behind the name are the calls of `int`. From left to right, an integral with the bracket right behind the
name is passed over as a whole, so nothing is asked of the calls inside it. -/
inductive Recognizable : List Token → Prop where
  | nil : Recognizable []
  | integral {p opening q inside closing r after es} (head : callable integralName = true)
      (arguments : AreArguments callable inside es) (three : es.length = 3)
      (adjacent : q = p + integralName.length) (rest : Recognizable after) :
      Recognizable (⟨.name, integralName, p⟩ :: ⟨.opening, opening, q⟩ ::
        (inside ++ ⟨.closing, closing, r⟩ :: after))
  | token {t ts} (start : StartsRecognizably callable (t :: ts)) (rest : Recognizable ts) :
      Recognizable (t :: ts)

end Start

section Tokens
variable {callable : String → Bool}

theorem StartsRecognizably.left (ts us : List Token) (h : StartsRecognizably callable (ts ++ us)) :
    StartsRecognizably callable ts := by
  rintro name p opening q inside closing r after es rfl
  refine h name p opening q inside closing r (after ++ us) es ?_
  simp

theorem startsRecognizably_singleton (t : Token) : StartsRecognizably callable [t] := by
  rintro name p opening q inside closing r after es hcut
  cases hcut

theorem recognizable_of_forall_suffix {tokens : List Token}
    (h : ∀ ts, ts <:+ tokens → StartsRecognizably callable ts) : Recognizable callable tokens := by
  induction tokens with
  | nil => exact .nil
  | cons t ts ih =>
    exact .token (h _ (List.suffix_refl _)) (ih fun us hus => h us (hus.trans (List.suffix_cons t ts)))

/-- It is enough to look at each name that ends in `int` and has a bracket behind it. -/
theorem recognizable_of_isChain {tokens : List Token}
    (h : tokens.IsChain fun t u => t.kind = .name → u.kind = .opening →
      integralName.toList <:+ t.text.toList →
        (u.position = t.position + t.text.length ↔ t.text = integralName)) :
    Recognizable callable tokens := by
  refine recognizable_of_forall_suffix ?_
  rintro ts ⟨before, rfl⟩ name p opening q inside closing r after es rfl - - hname
  exact (List.isChain_cons_cons.mp h.right_of_append).1 rfl rfl hname

end Tokens

/-! ## The brackets of tokens -/

/-- The character of a bracket, and a blank for any other token. -/
def bracket (t : Token) : Char :=
  match t.kind with
  | .opening => '('
  | .closing => ')'
  | _ => ' '

/-- The brackets of a list of tokens. -/
def brackets (ts : List Token) : List Char := ts.map bracket

section Brackets
variable {ts us : List Token} {t : Token}

@[simp] theorem brackets_append (ts us : List Token) :
    brackets (ts ++ us) = brackets ts ++ brackets us :=
  List.map_append

@[simp] theorem brackets_cons (t : Token) (ts : List Token) :
    brackets (t :: ts) = bracket t :: brackets ts :=
  rfl

theorem balanced_cons (ht : bracket t = ' ') (h : Balanced (brackets ts)) :
    Balanced (brackets (t :: ts)) := by
  rw [brackets_cons, ht]
  exact (balanced_cons_iff (by decide) (by decide)).mpr h

theorem balanced_across (ht : bracket t = ' ') (h : Balanced (brackets ts))
    (h' : Balanced (brackets us)) : Balanced (brackets (ts ++ t :: us)) := by
  rw [brackets_append]
  exact h.append (balanced_cons ht h')

theorem balanced_bracketed {opening closing : String} {p q : ℕ} (h : Balanced (brackets ts)) :
    Balanced (brackets (⟨.opening, opening, p⟩ :: (ts ++ [⟨.closing, closing, q⟩]))) := by
  rw [brackets_cons, brackets_append]
  exact h.bracketed

theorem balanced_nil : Balanced (brackets []) := balanced_of_no_brackets List.not_mem_nil List.not_mem_nil

end Brackets
end GraphCalc.IntegralCall

namespace GraphCalc.Grammar
open GraphCalc.Text GraphCalc.IntegralCall

section Balance
variable {callable : String → Bool}

mutual

theorem IsSum.balanced {ts : List Token} {e : Expr} :
    IsSum callable ts e → Balanced (brackets ts)
  | .product h => h.balanced
  | .join left _ right => balanced_across rfl left.balanced right.balanced

theorem IsProduct.balanced {ts : List Token} {e : Expr} :
    IsProduct callable ts e → Balanced (brackets ts)
  | .signed h => h.balanced
  | .join left _ right => balanced_across rfl left.balanced right.balanced
  | .juxtapose left right _ => by
      rw [brackets_append]
      exact left.balanced.append right.balanced

theorem IsSigned.balanced {ts : List Token} {e : Expr} :
    IsSigned callable ts e → Balanced (brackets ts)
  | .sign _ operand => balanced_cons rfl operand.balanced
  | .power h => h.balanced

theorem IsPower.balanced {ts : List Token} {e : Expr} :
    IsPower callable ts e → Balanced (brackets ts)
  | .atom h => h.balanced
  | .power base exponent => balanced_across rfl base.balanced exponent.balanced

theorem IsAtom.balanced {ts : List Token} {e : Expr} :
    IsAtom callable ts e → Balanced (brackets ts)
  | .number => balanced_cons rfl balanced_nil
  | .var => balanced_cons rfl balanced_nil
  | .group inside => balanced_bracketed inside.balanced
  | .callEmpty _ => balanced_cons rfl (balanced_bracketed balanced_nil)
  | .call _ inside => balanced_cons rfl (balanced_bracketed inside.balanced)

theorem AreArguments.balanced {ts : List Token} {es : List Expr} :
    AreArguments callable ts es → Balanced (brackets ts)
  | .last h => h.balanced
  | .more first others => balanced_across rfl first.balanced others.balanced

end

end Balance
end GraphCalc.Grammar

namespace GraphCalc.IntegralCall
open GraphCalc.Text GraphCalc.Token GraphCalc.Grammar

/-! ## Operands of recognizable tokens -/

section Operands
variable {callable : String → Bool} {ts us inside after : List Token} {t : Token} {es : List Expr}
  {name opening closing : String} {p q r : ℕ}

/-- Whatever the tokens open, they close: from no place on they open more than they close. -/
def ClosesItsOwn (ts : List Token) : Prop :=
  ∀ back, back <:+ ts → level (brackets back) ≤ 0

theorem closesItsOwn_of_balanced (h : Balanced (brackets ts)) : ClosesItsOwn ts := by
  rintro back ⟨front, rfl⟩
  have hfront := h.2 (brackets front) ⟨brackets back, (brackets_append front back).symm⟩
  have htotal := h.1
  rw [brackets_append, level_append] at htotal
  omega

theorem ClosesItsOwn.behind (front : List Token) (h : ClosesItsOwn (front ++ ts)) :
    ClosesItsOwn ts :=
  fun back hback => h back (hback.trans (List.suffix_append front ts))

/-- An integral that starts in tokens that close their brackets ends in them. -/
theorem ClosesItsOwn.exists_behind (h : ClosesItsOwn (⟨.opening, opening, q⟩ :: ts))
    (harguments : AreArguments callable inside es)
    (hcut : ts ++ us = inside ++ ⟨.closing, closing, r⟩ :: after) :
    ∃ back, ts = inside ++ ⟨.closing, closing, r⟩ :: back ∧ after = back ++ us := by
  -- Tokens that end inside the integral leave its bracket open.
  have hinside : ¬ ts <+: inside := by
    rintro ⟨more, rfl⟩
    have hfront := harguments.balanced.2 (brackets ts) ⟨brackets more, (brackets_append ts more).symm⟩
    have hopen := h _ (List.suffix_refl _)
    rw [brackets_cons] at hopen
    have hone : level (bracket ⟨.opening, opening, q⟩ :: brackets ts) = level (brackets ts) + 1 :=
      level_opening _
    omega
  rcases List.append_eq_append_iff.mp hcut with ⟨more, rfl, -⟩ | ⟨more, rfl, hmore⟩
  · exact absurd (List.prefix_append ts more) hinside
  · cases more with
    | nil => exact absurd (by rw [List.append_nil]) hinside
    | cons u back =>
      obtain ⟨rfl, rfl⟩ := List.cons.inj hmore
      exact ⟨back, rfl, rfl⟩

/-- Balanced tokens end before the bracket that closes balanced tokens in front of it. -/
theorem not_balanced_of_closing (h : Balanced (brackets ts)) :
    ¬ Balanced (brackets (ts ++ ⟨.closing, closing, r⟩ :: us)) := by
  rw [brackets_append]
  intro hwhole
  have hbehind := (hwhole.right h.1).2 [')'] (List.cons_prefix_cons.mpr ⟨rfl, List.nil_prefix⟩)
  simp at hbehind

/-- Balanced tokens before a closing bracket end at the same one. -/
theorem eq_of_closing {t u : Token} {back back' : List Token} (ht : t.kind = .closing)
    (hu : u.kind = .closing) (h : Balanced (brackets ts)) (h' : Balanced (brackets us))
    (hcut : ts ++ t :: back = us ++ u :: back') : ts = us := by
  obtain ⟨_, _, _⟩ := t
  obtain ⟨_, _, _⟩ := u
  obtain rfl := ht
  obtain rfl := hu
  rcases List.append_eq_append_iff.mp hcut with ⟨more, rfl, hmore⟩ | ⟨more, rfl, hmore⟩
  · cases more with
    | nil => exact (List.append_nil ts).symm
    | cons v more =>
      obtain ⟨rfl, -⟩ := List.cons.inj hmore
      exact absurd h' (not_balanced_of_closing h)
  · cases more with
    | nil => exact List.append_nil us
    | cons v more =>
      obtain ⟨rfl, -⟩ := List.cons.inj hmore
      exact absurd h (not_balanced_of_closing h')

theorem Recognizable.left (h : Recognizable callable (ts ++ us)) (hts : ClosesItsOwn ts) :
    Recognizable callable ts := by
  generalize hwhole : ts ++ us = whole at h
  induction h generalizing ts with
  | nil =>
    obtain ⟨rfl, -⟩ := List.append_eq_nil_iff.mp hwhole
    exact .nil
  | integral head arguments three adjacent _ ih =>
    rcases ts with _ | ⟨t, _ | ⟨u, ts⟩⟩
    · exact .nil
    · exact .token (startsRecognizably_singleton t) .nil
    · obtain ⟨rfl, hrest⟩ := List.cons.inj hwhole
      obtain ⟨rfl, hcut⟩ := List.cons.inj hrest
      obtain ⟨back, rfl, hback⟩ := ClosesItsOwn.exists_behind (hts.behind [_]) arguments hcut
      refine .integral head arguments three adjacent (ih ?_ hback.symm)
      exact ClosesItsOwn.behind (_ :: _ :: (_ ++ [_])) (by simpa using hts)
  | token start _ ih =>
    rcases ts with _ | ⟨t, ts⟩
    · exact .nil
    · obtain ⟨rfl, rfl⟩ := List.cons.inj hwhole
      exact .token (start.left (_ :: ts) us) (ih (hts.behind [_]) rfl)

theorem MayFollow.behind (front : List Token) (h : MayFollow callable (front ++ ts) us) :
    MayFollow callable ts us := by
  rcases ts with _ | ⟨t, ts⟩
  · rintro ⟨⟨⟩, -⟩
  · rwa [MayFollow, endsInHead_append_cons] at h

/-- The bracket of an integral does not stand at a seam, where a callable name would be the head of a
call. -/
theorem Recognizable.right (h : Recognizable callable (ts ++ us)) (hts : ClosesItsOwn ts)
    (hseam : MayFollow callable ts us) : Recognizable callable us := by
  generalize hwhole : ts ++ us = whole at h
  induction h generalizing ts with
  | nil =>
    obtain ⟨-, rfl⟩ := List.append_eq_nil_iff.mp hwhole
    exact .nil
  | integral head arguments three adjacent rest ih =>
    rcases ts with _ | ⟨t, _ | ⟨u, ts⟩⟩
    · rw [List.nil_append] at hwhole
      rw [hwhole]
      exact .integral head arguments three adjacent rest
    · obtain ⟨rfl, rfl⟩ := List.cons.inj hwhole
      exact absurd ⟨head, rfl⟩ hseam
    · obtain ⟨rfl, hrest⟩ := List.cons.inj hwhole
      obtain ⟨rfl, hcut⟩ := List.cons.inj hrest
      obtain ⟨back, rfl, rfl⟩ := ClosesItsOwn.exists_behind (hts.behind [_]) arguments hcut
      refine ih ?_ ?_ rfl
      · exact ClosesItsOwn.behind (_ :: _ :: (_ ++ [_])) (by simpa using hts)
      · exact MayFollow.behind (_ :: _ :: (_ ++ [_])) (by simpa using hseam)
  | token start rest ih =>
    rcases ts with _ | ⟨t, ts⟩
    · rw [List.nil_append] at hwhole
      rw [hwhole]
      exact .token start rest
    · obtain ⟨rfl, rfl⟩ := List.cons.inj hwhole
      exact ih (hts.behind [_]) (MayFollow.behind [_] hseam) rfl

theorem Recognizable.tail (h : Recognizable callable (t :: us)) (ht : t.kind ≠ .name) :
    Recognizable callable us := by
  cases h with
  | integral => exact absurd rfl ht
  | token _ rest => exact rest

/-- The operands on both sides of an operator or a comma. -/
theorem Recognizable.sides (h : Recognizable callable (ts ++ t :: us)) (hts : Balanced (brackets ts))
    (hname : t.kind ≠ .name) (hopening : t.kind ≠ .opening) :
    Recognizable callable ts ∧ Recognizable callable us := by
  have hcloses := closesItsOwn_of_balanced hts
  have hseam : MayFollow callable ts (t :: us) := by
    rintro ⟨-, hstarts⟩
    obtain ⟨text, p, us, hcut⟩ := eq_cons_of_startsWithOpening hstarts
    rw [(List.cons.inj hcut).1] at hopening
    exact hopening rfl
  exact ⟨h.left hcloses, (h.right hcloses hseam).tail hname⟩

theorem Recognizable.bracketed
    (h : Recognizable callable (⟨.opening, opening, q⟩ :: (inside ++ [⟨.closing, closing, r⟩])))
    (hinside : Balanced (brackets inside)) : Recognizable callable inside :=
  (h.tail (by simp)).left (closesItsOwn_of_balanced hinside)

/-- A recognizable call is an integral that is found, or looks like what it is and has recognizable
arguments. -/
theorem Recognizable.call
    (h : Recognizable callable (⟨.name, name, p⟩ :: ⟨.opening, opening, q⟩ ::
      (inside ++ [⟨.closing, closing, r⟩]))) (hinside : AreArguments callable inside es) :
    (name = integralName ∧ q = p + name.length ∧
        ∃ es', AreArguments callable inside es' ∧ es'.length = 3) ∨
      ((es.length = 3 → integralName.toList <:+ name.toList →
          (q = p + name.length ↔ name = integralName)) ∧
        Recognizable callable inside) := by
  generalize hwhole : inside ++ [⟨.closing, closing, r⟩] = rest at h
  cases h with
  | @integral p opening q inside' closing' r' after es' head arguments three adjacent rest =>
    have hsame := eq_of_closing rfl rfl hinside.balanced arguments.balanced hwhole
    exact .inl ⟨rfl, adjacent, es', by rwa [hsame], three⟩
  | token start rest =>
    rw [← hwhole] at start rest
    exact .inr ⟨start name p opening q inside closing r [] es rfl hinside,
      rest.bracketed hinside.balanced⟩

end Operands
end GraphCalc.IntegralCall
