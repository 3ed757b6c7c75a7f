import GraphCalc.Proofs.Grammar.Complete
import GraphCalc.Proofs.Source.Spelling

/-! # Reading with more room

With more room the parser gives the same answer, be it a tree or a reason for refusal, unless it found
the nesting too deep. So there is one answer that a text has in all rooms that are large enough. Main
notions and statements:

* `Within.bind`, `within_extend`, `within_arguments`: answers in two rooms, through sequences and loops;
* `within_routines`: the answers of all routines in two rooms;
* `within_readWithin`: the answers for a text, and `readWithin_of_roomFor_le`: the last of them.
-/

namespace GraphCalc.Grammar
open GraphCalc.Parse
set_option autoImplicit false

/-! ## Sequences and loops -/

section Steps
variable {α β : Type} {r s : Except ParseError α}

theorem Within.refl (r : Except ParseError α) : Within r r := .inr rfl

theorem Within.deep (p : ℕ) (s : Except ParseError α) : Within (.error (.tooDeep p)) s := .inl ⟨p, rfl⟩

theorem Within.bind {f g : α → Except ParseError β} (h : Within r s) (hf : ∀ a, Within (f a) (g a)) :
    Within (r >>= f) (s >>= g) := by
  rcases h with hdeep | rfl
  · exact .inl (hdeep.bind f)
  · cases r with
    | error e => exact .refl _
    | ok a => exact hf a

end Steps

section Loops
variable {finish : ℕ}

/-- Two ways of extending an expression go on at the same places, and answer there within each other. -/
def ExtendsWithin (more more' : Cursor → Option (Except ParseError (Reading (Operator × Expr)))) :
    Prop :=
  ∀ c, Option.Rel Within (more c) (more' c)

theorem within_extend {more more' : Cursor → Option (Except ParseError (Reading (Operator × Expr)))}
    (h : ExtendsWithin more more') (steps : ℕ) (left : Expr) (c : Cursor) :
    Within (extend more steps left c) (extend more' steps left c) := by
  induction steps generalizing left c with
  | zero => exact .refl _
  | succ steps ih =>
    rw [extend, extend]
    have hmore := h c
    generalize more c = reading at hmore ⊢
    generalize more' c = reading' at hmore ⊢
    cases hmore with
    | none => exact .refl _
    | some hreading => exact hreading.bind fun _ => ih _ _

theorem within_arguments {argument argument' : Cursor → Except ParseError (Reading Expr)}
    (h : ∀ c, Within (argument c) (argument' c)) (steps : ℕ) (c : Cursor) :
    Within (arguments finish argument steps c) (arguments finish argument' steps c) := by
  induction steps generalizing c with
  | zero => exact .refl _
  | succ steps ih =>
    rw [arguments, arguments]
    split
    · exact .refl _
    · exact .refl _
    · refine (h c).bind fun first => ?_
      dsimp only
      split
      · exact (ih _).bind fun _ => .refl _
      · exact .refl _

theorem within_called {inside inside' : Cursor → Except ParseError (Reading (List Expr))}
    (h : ∀ c, Within (inside c) (inside' c)) (c : Cursor) :
    Within (called finish inside c) (called finish inside' c) := by
  unfold called
  split
  · exact h _
  · exact .refl _

end Loops

/-! ## Routines -/

section Routines
variable (callable : String → Bool) (finish : ℕ)

/-- The answers of all routines in some room, within those in another one. -/
structure RoutinesWithin (room room' : ℕ) : Prop where
  sum : ∀ c, Within (Parse.sum callable finish room c) (Parse.sum callable finish room' c)
  product : ∀ c, Within (Parse.product callable finish room c) (Parse.product callable finish room' c)
  signed : ∀ c, Within (Parse.signed callable finish room c) (Parse.signed callable finish room' c)
  power : ∀ c, Within (Parse.power callable finish room c) (Parse.power callable finish room' c)
  atom : ∀ c, Within (Parse.atom callable finish room c) (Parse.atom callable finish room' c)
  bracketed : ∀ c,
    Within (Parse.bracketed callable finish room c) (Parse.bracketed callable finish room' c)

variable {callable finish} {room room' : ℕ}

theorem RoutinesWithin.zero (room' : ℕ) : RoutinesWithin callable finish 0 room' where
  sum _ := .deep _ _
  product _ := .deep _ _
  signed _ := .deep _ _
  power _ := .deep _ _
  atom _ := .deep _ _
  bracketed _ := .deep _ _

theorem RoutinesWithin.succ (h : RoutinesWithin callable finish room room') :
    RoutinesWithin callable finish (room + 1) (room' + 1) where
  sum c := by
    rw [Parse.sum, Parse.sum]
    refine (h.product c).bind fun first => within_extend (fun c => ?_) _ _ _
    cases c.operator? [.add, .subtract] with
    | none => exact .none
    | some found => exact .some ((h.product _).bind fun _ => .refl _)
  product c := by
    rw [Parse.product, Parse.product]
    refine (h.signed c).bind fun first => within_extend (fun c => ?_) _ _ _
    cases c.operator? [.multiply, .divide, .modulo] with
    | some found => exact .some ((h.signed _).bind fun _ => .refl _)
    | none =>
      dsimp only
      split
      · exact .some ((h.power _).bind fun _ => .refl _)
      · exact .none
  signed c := by
    rw [Parse.signed, Parse.signed]
    cases c.sign? with
    | some found => exact (h.signed _).bind fun _ => .refl _
    | none => exact h.power c
  power c := by
    rw [Parse.power, Parse.power]
    refine (h.atom c).bind fun base => ?_
    dsimp only
    cases base.2.operator? [.power] with
    | some found => exact (h.signed _).bind fun _ => .refl _
    | none => exact .refl _
  atom c := by
    rw [Parse.atom, Parse.atom]
    split
    · exact .refl _
    · split
      · split
        · exact (within_called h.bracketed _).bind fun _ => .refl _
        · exact .refl _
      · exact .refl _
    · exact (h.sum _).bind fun _ => .refl _
    · exact .refl _
  bracketed c := by
    rw [Parse.bracketed, Parse.bracketed]
    split
    · exact .refl _
    · exact within_arguments h.sum _ _

/-- Each routine answers in more room as it does in less, or had too little. -/
theorem within_routines (h : room ≤ room') : RoutinesWithin callable finish room room' := by
  induction room generalizing room' with
  | zero => exact .zero room'
  | succ room ih =>
    obtain ⟨room', rfl⟩ : ∃ n, room' = n + 1 := ⟨room' - 1, by omega⟩
    exact (ih (by omega)).succ

end Routines

/-! ## Texts -/

section Texts
open GraphCalc.Expr
variable {callable : String → Bool} {room room' : ℕ}

theorem within_parseWithin (h : room ≤ room') (stream : Token.Stream) :
    Within (parseWithin room callable stream) (parseWithin room' callable stream) := by
  unfold parseWithin
  split
  · exact .refl _
  · exact ((within_routines h).sum _).bind fun _ => .refl _

theorem within_readWithin (h : room ≤ room') (text : String) :
    Within (readWithin room callable text) (readWithin room' callable text) := by
  unfold readWithin
  split
  · exact within_parseWithin h _
  · exact .refl _

theorem lt_roomFor_of_tooDeep {text : String} (h : TooDeep (readWithin room callable text)) :
    room < roomFor text := by
  unfold readWithin at h
  split at h
  · next stream hscan =>
    have hlength := (Token.scan_tokens hscan).2
    by_contra hroom
    refine not_tooDeep_of_enoughRoom ?_ h
    unfold roomFor at hroom
    unfold enoughRoom
    omega
  · cases tooDeep_error_iff.mp h

/-- From some room on there is nothing that more room would change. -/
theorem readWithin_of_roomFor_le {text : String} (h : roomFor text ≤ room) :
    readWithin room callable text = readWithin (roomFor text) callable text :=
  ((within_readWithin h text).resolve_left fun hdeep =>
    Nat.lt_irrefl _ (lt_roomFor_of_tooDeep hdeep)).symm

end Texts
end GraphCalc.Grammar
