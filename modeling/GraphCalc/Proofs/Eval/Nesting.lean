import GraphCalc.Proofs.Eval.Inquiry
import GraphCalc.Proofs.Line.Drawn
import GraphCalc.Proofs.Source.Rendered

/-! # Calls under nesting

A body is read in the room that is left where its function is called, unless it is remembered. So a call
can have a value where it stands by itself, be cut off where it stands deep inside a text, and have its
value there too once the body is remembered. Main notions and statements:

* `Token.nested`, `Token.negated`: a text inside brackets, and behind signs;
* `Expr.spells_nested`, `Expr.readWithin_of_spells`: the room that a text inside brackets takes;
* `Expr.value_negations`: the room that a value behind signs takes;
* `Engine.Coherent.reply_negatedCall`: when a call behind signs is cut off, and what is remembered then.
-/

namespace GraphCalc
open GraphCalc.Grammar
set_option autoImplicit false

/-! ## Texts -/

namespace Token

/-- A text inside `n` pairs of brackets. -/
def nested (text : List Char) : ℕ → List Char
  | 0 => text
  | n + 1 => '(' :: (nested text n ++ [')'])

theorem mem_nested {text : List Char} {c : Char} : ∀ {n : ℕ}, c ∈ nested text n →
    c = '(' ∨ c = ')' ∨ c ∈ text
  | 0, h => .inr (.inr h)
  | n + 1, h => by
    rcases List.mem_cons.mp h with rfl | h
    · exact .inl rfl
    · rcases List.mem_append.mp h with h | h
      · exact mem_nested h
      · exact .inr (.inl (List.mem_singleton.mp h))

/-- A text behind `k` minus signs. -/
def negated (text : List Char) : ℕ → List Char
  | 0 => text
  | k + 1 => '-' :: negated text k

end Token

namespace Expr
open GraphCalc.Token

/-- A tree under `k` minus signs. -/
def negations (e : Expr) : ℕ → Expr
  | 0 => e
  | k + 1 => .signed .minus (e.negations k)

section Texts
variable {callable : String → Bool} {need : ℕ} {text : List Char} {e : Expr}

theorem spells_nested (h : Spells text fun ts => SumTakes callable need ts e) (n : ℕ) :
    Spells (nested text n) fun ts => SumTakes callable (need + 5 * n) ts e := by
  induction n with
  | zero => exact h
  | succ n ih =>
    have hclosing := Spells.char isMark_closing spells_nil
    refine (Spells.char isMark_opening (ih.append hclosing rfl)).mono ?_
    rintro _ ⟨p, _, rfl, us, _, rfl, hus, q, _, rfl, rfl⟩
    exact .product (.signed (.power (.atom (.group hus))))

theorem spells_negated (h : Spells text fun ts => SignedTakes callable need ts e) (k : ℕ) :
    Spells (negated text k) fun ts => SignedTakes callable (need + k) ts (e.negations k) := by
  induction k with
  | zero => exact h
  | succ k ih =>
    have hminus : IsMark '-' .operator := ⟨by decide, fun _ _ => rfl⟩
    have hknown : Sign.minus ∈ [Sign.plus, Sign.minus] := by decide
    refine (Spells.char hminus ih).mono ?_
    rintro _ ⟨p, us, rfl, hus⟩
    exact .sign hknown hus

theorem readWithin_of_spells (h : Spells text fun ts => SumTakes callable need ts e) (room : ℕ) :
    InRoom need room (readWithin room callable (String.ofList text)) (.ok e) := by
  obtain ⟨stream, hscan, htakes⟩ := h.scan
  rw [readWithin, String.toList_ofList, hscan]
  exact parseWithin_of_takes htakes room

end Texts

/-- Each sign takes one unit of room from what stands behind it. -/
theorem value_negations {m : Type → Type} [Monad m] [LawfulMonad m] [MonadExceptOf EvalError m]
    (c : Calculus) (enter? : Option (Entry m)) (room : ℕ) (bindings : Bindings) (e : Expr) (k : ℕ) :
    (e.negations k).value c enter? (some (room + k)) bindings =
      (fun v => Neg.neg^[k] v) <$> e.value c enter? (some room) bindings := by
  induction k with
  | zero => exact (id_map _).symm
  | succ k ih =>
    rw [negations, value]
    show (pure (some (room + k)) >>= fun room => _) = _
    rw [pure_bind]
    dsimp only
    rw [ih]
    simp only [map_eq_pure_bind, bind_assoc, pure_bind, Function.iterate_succ_apply', Sign.apply]

end Expr

/-! ## A function with a nested body -/

/-- A function that is constant, by a body inside `n` pairs of brackets. -/
def nestedConstant (n : ℕ) : Definition := ⟨"f", "t", String.ofList (Token.nested ['e'] n)⟩

/-- A table with such a function, which takes more than half of the room. -/
def deepTable : FunctionTable := ⟨[nestedConstant 120], List.nodup_singleton _⟩

/-- The value of the function. -/
def euler : Float := 2.718281828459045

theorem iterate_neg_euler (k : ℕ) : Neg.neg^[2 * k] euler = euler := by
  have htwice : Function.IsFixedPt Neg.neg^[2] euler := by decide
  rw [Function.iterate_mul]
  exact htwice.iterate k

/-- A call of it behind `k` signs. -/
def negatedCall (k : ℕ) : String := String.ofList (Token.negated (callAtX "f").toList k)

section Texts
variable {functions : FunctionTable} {n k : ℕ}

theorem readWithin_body (functions : FunctionTable) (n room : ℕ) :
    InRoom (5 * n + 5) room (functions.readWithin (some room) (nestedConstant n).body)
      (.ok (.var "e")) := by
  have he : Token.IsName "e" := ⟨'e', [], rfl, .inl ⟨rfl, by simp⟩⟩
  have hvar : Token.Spells ['e'] fun ts => SumTakes functions.callable 5 ts (.var "e") := by
    refine (Token.spells_name he).mono ?_
    rintro _ ⟨p, rfl⟩
    exact .product (.signed (.power (.atom .var)))
  rw [Nat.add_comm]
  exact Expr.readWithin_of_spells (Expr.spells_nested hvar n) room

theorem read_negatedCall (hcallable : functions.callable "f" = true) (hk : k ≤ 959) :
    functions.read (negatedCall k) = .ok ((Expr.call "f" [.var "x"]).negations k) := by
  have hcall := (spells_callAtX ⟨'f', [], rfl, rfl, by simp⟩ hcallable).mono
    (Q := fun ts => SignedTakes _ 9 ts _) fun ts h => .power (.atom h)
  have hsum := (Expr.spells_negated hcall k).mono fun ts h => SumTakes.product (.signed h)
  refine (Expr.readWithin_of_spells hsum Parse.room).ok_iff.mpr ⟨?_, rfl⟩
  rw [Parse.room]
  omega

theorem mem_negatedCall {c : Char} (h : c ∈ (negatedCall k).toList) : c ∈ ['-', 'f', '(', 'x', ')'] := by
  rw [negatedCall, String.toList_ofList] at h
  induction k with
  | zero =>
    have hcall : (callAtX "f").toList = ['f', '(', 'x', ')'] := by simp [callAtX]
    rw [Token.negated, hcall] at h
    exact List.mem_cons_of_mem _ h
  | succ k ih =>
    rcases List.mem_cons.mp h with rfl | h
    · exact List.mem_cons_self
    · exact ih h

/-- The line of the call is drawn as it is. -/
theorem read_line_negatedCall (k : ℕ) :
    Line.read (negatedCall k) = ⟨negatedCall k, .curve (negatedCall k), none, none⟩ := by
  have hblank : ∀ c ∈ ['-', 'f', '(', 'x', ')'], Text.isBlank c = false := by
    simp only [List.forall_mem_cons]
    exact ⟨by decide, by decide, by decide, by decide, by decide, nofun⟩
  exact read_plain (fun h => absurd (mem_negatedCall h) (by decide))
    (fun h => absurd (mem_negatedCall h) (by decide))
    (Text.trim_eq_self fun c hc => hblank c (mem_negatedCall hc))

end Texts

/-! ## Its calls -/

namespace Engine
variable {settings : Settings} {functions : FunctionTable} {engine : Engine} {n k room : ℕ}

/-- A call takes three units of room from the body. -/
theorem evaluation_call {calls : ℕ} (hfind : engine.functions.find? "f" = some (nestedConstant n))
    (hcalls : engine.settings.maxCallDepth.toNat = calls + 1) (room : ℕ) (x : Float) :
    engine.evaluation (some (room + 3)) [(integrationVariable, x)] (.call "f" [.var "x"]) =
      fetch engine.functions (nestedConstant n) (some (room + 1)) >>= fun body =>
        body.value engine.calculus (engine.calculus.enter? (fetch engine.functions) calls)
          (some (room + 1)) [("t", x), (integrationVariable, x)] := by
  have hdefines : engine.calculus.functions.defines "f" = true := by
    rw [calculus, FunctionTable.defines, hfind]
    rfl
  have hfound : engine.calculus.functions.find? "f" = some (nestedConstant n) := hfind
  rw [evaluation, hcalls, Expr.value]
  show (pure (some (room + 2)) >>= fun room => _) = _
  rw [pure_bind]
  show (pure (some (room + 1)) >>= fun room => _) = _
  rw [pure_bind]
  simp only [hdefines, not_true, and_false, if_false, hfound]
  rfl

/-- A call behind signs has the value of the body, with its sign changed for each of them, if the body
is got. Otherwise it has the fault for which the body is not. -/
theorem on_negatedCall (hfind : engine.functions.find? "f" = some (nestedConstant n))
    (hcalls : 0 < engine.settings.maxCallDepth) (x : Float) {found : Except EvalError Expr}
    {bodies after : Memo Expr} (hfound : ∀ body, found = .ok body → body = .var "e")
    (hfetch : (fetch engine.functions (nestedConstant n) (some (room + 1))).on bodies =
      (found, after)) :
    (engine.evaluation (some (room + 3 + k)) [(integrationVariable, x)]
        ((Expr.call "f" [.var "x"]).negations k)).on bodies =
      (found.map fun _ => Neg.neg^[k] euler, after) := by
  obtain ⟨calls, hcalls⟩ : ∃ calls, engine.settings.maxCallDepth.toNat = calls + 1 :=
    Nat.exists_eq_add_one.mpr (by omega)
  have hcall := evaluation_call hfind hcalls room x
  rw [evaluation] at hcall ⊢
  rw [Expr.value_negations, hcall, map_eq_pure_bind, Evaluation.on_bind, Evaluation.on_bind, hfetch]
  cases found with
  | error e => rfl
  | ok body =>
    obtain rfl := hfound body rfl
    rfl

theorem evaluateWithin_of_on {limit : Room} {e : Expr} {bindings : Bindings}
    {outcome : Except EvalError Float} {after : Memo Expr}
    (h : (engine.evaluation limit bindings e).on engine.bodies = (outcome, after)) :
    engine.evaluateWithin limit e bindings = (outcome, { engine with bodies := after }) := by
  rw [Evaluation.on] at h
  rw [evaluateWithin, h]

theorem Coherent.reply_text (h : engine.Coherent settings functions) {source : String} {e : Expr}
    (hread : functions.read source = .ok e) (bindings : Bindings) :
    ∃ compiled : Engine, compiled.Coherent settings functions ∧ compiled.bodies = engine.bodies ∧
      engine.reply (.text source bindings) = compiled.evaluateTree e bindings := by
  obtain ⟨htree, hcompiled, hbodies⟩ := h.compile source
  refine ⟨_, hcompiled, hbodies, ?_⟩
  rw [Engine.reply, Engine.evaluate]
  generalize engine.compile source = found at htree
  obtain ⟨tree, compiled⟩ := found
  obtain rfl : tree = .ok e := htree.trans hread
  rfl

theorem forReading_left (hk : k ≤ 959) : Room.forReading (some (978 - k)) = some (968 - k) :=
  congrArg some (by omega)

section Calls
variable (h : engine.Coherent settings functions) (hfind : functions.find? "f" = some (nestedConstant n))
  (hcalls : 0 < settings.maxCallDepth) (hk : k ≤ 959) (x : Float)
include h hfind hcalls hk

/-- A call behind signs is answered as its body is got in the room that they leave. -/
theorem Coherent.reply_negatedCall {found : Except EvalError Expr} {after : Memo Expr}
    (hfound : ∀ body, found = .ok body → body = .var "e")
    (hfetch : (fetch functions (nestedConstant n) (some (978 - k))).on engine.bodies = (found, after)) :
    (engine.reply (.text (negatedCall k) [(integrationVariable, x)])).1 =
        found.map (fun _ => Neg.neg^[k] euler) ∧
      (engine.reply (.text (negatedCall k) [(integrationVariable, x)])).2.bodies = after := by
  have hcallable : functions.callable "f" = true := by
    rw [FunctionTable.callable, FunctionTable.defines, hfind]
    exact Bool.or_true _
  obtain ⟨compiled, hcompiled, hbodies, hreply⟩ :=
    h.reply_text (read_negatedCall hcallable hk) [(integrationVariable, x)]
  obtain ⟨room, hroom⟩ : ∃ room, 978 - k = room + 1 := Nat.exists_eq_add_one.mpr (by omega)
  rw [hroom, ← hbodies, ← hcompiled.functions_eq] at hfetch
  rw [← hcompiled.settings_eq] at hcalls
  rw [← hcompiled.functions_eq] at hfind
  have hon := on_negatedCall (k := k) hfind hcalls x hfound hfetch
  have husual : Room.usual = some (room + 3 + k) := congrArg some (by omega)
  rw [hreply, Engine.evaluateTree, husual, evaluateWithin_of_on hon]
  exact ⟨rfl, rfl⟩

/-- It is cut off if the body is not remembered and takes more room than the signs leave. -/
theorem Coherent.reply_negatedCall_of_deep (hunknown : engine.bodies.find? "f" = none)
    (hdeep : 968 < 5 * n + 5 + k) : ∃ p,
    (engine.reply (.text (negatedCall k) [(integrationVariable, x)])).1 =
        .error (.unreadable (.tooDeep p)) ∧
      (engine.reply (.text (negatedCall k) [(integrationVariable, x)])).2.bodies = engine.bodies := by
  have hread := readWithin_body functions n (968 - k)
  rw [InRoom, if_neg (by omega)] at hread
  obtain ⟨p, hread⟩ := hread
  have hnot : ∀ body, (.error (.unreadable (.tooDeep p)) : Except EvalError Expr) = .ok body →
      body = .var "e" := by
    rintro body ⟨⟩
  refine ⟨p, h.reply_negatedCall hfind hcalls hk x hnot ?_⟩
  rw [Evaluation.on_fetch, show (nestedConstant n).name = "f" from rfl, hunknown, forReading_left hk,
    hread]

/-- It has a value if the body is remembered or takes no more room than the signs leave, and the body is
remembered then. -/
theorem Coherent.reply_negatedCall_of_read
    (hread : engine.bodies.find? "f" ≠ none ∨ 5 * n + 5 + k ≤ 968) :
    (engine.reply (.text (negatedCall k) [(integrationVariable, x)])).1 = .ok (Neg.neg^[k] euler) ∧
      (engine.reply (.text (negatedCall k) [(integrationVariable, x)])).2.bodies.find? "f" ≠ none := by
  have hname : (nestedConstant n).name = "f" := rfl
  cases hknown : engine.bodies.find? "f" with
  | some body =>
    obtain ⟨d, hd, hbody⟩ := h.bodies "f" body hknown
    obtain rfl := Option.some.inj (hfind.symm.trans hd)
    obtain ⟨-, rfl⟩ := (readWithin_body functions n 970).ok_iff.mp hbody
    have hfetch : (fetch functions (nestedConstant n) (some (978 - k))).on engine.bodies =
        (.ok (.var "e"), engine.bodies) := by
      rw [Evaluation.on_fetch, hname, hknown]
    obtain ⟨hvalue, hafter⟩ :=
      h.reply_negatedCall hfind hcalls hk x (fun _ => Eq.symm ∘ Except.ok.inj) hfetch
    exact ⟨hvalue, by rw [hafter, hknown]; nofun⟩
  | none =>
    have hroom := hread.resolve_left (absurd hknown)
    have hbody := (readWithin_body functions n (968 - k)).ok_iff.mpr ⟨by omega, rfl⟩
    have hfetch : (fetch functions (nestedConstant n) (some (978 - k))).on engine.bodies =
        (.ok (.var "e"), engine.bodies.keep none "f" (.var "e")) := by
      rw [Evaluation.on_fetch, hname, hknown, forReading_left hk, hbody]
    obtain ⟨hvalue, hafter⟩ :=
      h.reply_negatedCall hfind hcalls hk x (fun _ => Eq.symm ∘ Except.ok.inj) hfetch
    refine ⟨hvalue, ?_⟩
    rw [hafter, Memo.find?_keep, if_pos rfl]
    nofun

/-- A text of the call finds its value in both cases in which the call has one. -/
theorem Coherent.run_negatedCall_of_read
    (hread : engine.bodies.find? "f" ≠ none ∨ 5 * n + 5 + k ≤ 968) : ∃ later : Engine,
      engine.run (Inquiry.valueAt (negatedCall k) x) = (Neg.neg^[k] euler, later) ∧
        later.Coherent settings functions ∧ later.bodies.find? "f" ≠ none := by
  obtain ⟨hvalue, hafter⟩ := h.reply_negatedCall_of_read hfind hcalls hk x hread
  have hrun := run_valueAt (negatedCall k) x engine
  rw [hvalue] at hrun
  exact ⟨_, Prod.ext hrun rfl, (h.run (Inquiry.valueAt (negatedCall k) x)).1, hafter⟩

/-- Where the call is cut off the text is undefined. -/
theorem Coherent.run_negatedCall_of_deep (hunknown : engine.bodies.find? "f" = none)
    (hdeep : 968 < 5 * n + 5 + k) : ∃ later : Engine,
      engine.run (Inquiry.valueAt (negatedCall k) x) = (Binary64.nan, later) ∧
        later.Coherent settings functions ∧ later.bodies.find? "f" = none := by
  obtain ⟨p, hvalue, hafter⟩ := h.reply_negatedCall_of_deep hfind hcalls hk x hunknown hdeep
  have hrun := run_valueAt (negatedCall k) x engine
  rw [hvalue] at hrun
  exact ⟨_, Prod.ext hrun rfl, (h.run (Inquiry.valueAt (negatedCall k) x)).1,
    (congrArg (Memo.find? · "f") hafter).trans hunknown⟩

end Calls
end Engine
end GraphCalc
