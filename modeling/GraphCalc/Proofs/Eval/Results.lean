import GraphCalc.Proofs.Eval.Inquiry

/-! # Results of computations

What a search asks for need not have one value: an engine that fails to read a body may have read it a
few questions later. So facts on a search are proved of every result that it may have, given those of the
values it asks for. Main notions and statements:

* `Results`: what computations may result in, such that results come from results of the steps;
* `Results.of_mapM`: results of one computation after the other along a list;
* `Results.exact`: the one result of a computation without steps of its own;
* `Engine.results`: the results of inquiries on engines between two points in time.
-/

namespace GraphCalc
set_option autoImplicit false

/-- What computations may result in. The result of one that goes on with a value is a result of how it
goes on. -/
structure Results (m : Type → Type) [Monad m] where
  Gives : {α : Type} → m α → α → Prop
  of_pure : ∀ {α : Type} {a b : α}, Gives (pure a) b → b = a
  of_bind : ∀ {α β : Type} {computation : m α} {f : α → m β} {b : β}, Gives (computation >>= f) b →
    ∃ a, Gives computation a ∧ Gives (f a) b

namespace Results
variable {m : Type → Type} [Monad m] {α β : Type}

theorem of_mapM [LawfulMonad m] (R : Results m) {f : α → m β} {as : List α} {bs : List β}
    (h : R.Gives (as.mapM f) bs) : List.Forall₂ (fun a b => R.Gives (f a) b) as bs := by
  induction as generalizing bs with
  | nil =>
    rw [List.mapM_nil] at h
    rw [R.of_pure h]
    exact .nil
  | cons a as ih =>
    rw [List.mapM_cons] at h
    obtain ⟨b, hb, h⟩ := R.of_bind h
    obtain ⟨rest, hrest, h⟩ := R.of_bind h
    rw [R.of_pure h]
    exact .cons hb (ih hrest)

/-- What is in one of the lists that computations along a list result in, one of them results in. -/
theorem mem_flatten_of_mapM [LawfulMonad m] (R : Results m) {f : α → m (List β)} {as : List α}
    {lists : List (List β)} {b : β} (h : R.Gives (as.mapM f) lists) (hb : b ∈ lists.flatten) :
    ∃ a ∈ as, ∃ list, R.Gives (f a) list ∧ b ∈ list := by
  have hlists := R.of_mapM h
  clear h
  induction hlists with
  | nil => cases hb
  | @cons a list as lists hlist _ ih =>
    rw [List.flatten_cons, List.mem_append] at hb
    rcases hb with hb | hb
    · exact ⟨a, List.mem_cons_self, list, hlist, hb⟩
    · obtain ⟨c, hc, hfound⟩ := ih hb
      exact ⟨c, List.mem_cons_of_mem _ hc, hfound⟩

/-- A computation without steps of its own has one result. -/
def exact : Results Id where
  Gives computation a := computation.run = a
  of_pure := Eq.symm
  of_bind h := ⟨_, rfl, h⟩

end Results

namespace Engine

/-- The results of inquiries on engines of a kind that no inquiry leaves, where the engine afterwards is
of a kind that no inquiry leads to from elsewhere. -/
def results (start finish : Engine → Prop)
    (hstart : ∀ (engine : Engine) (question : Question), start engine → start (engine.reply question).2)
    (hfinish : ∀ (engine : Engine) (question : Question), start engine →
      finish (engine.reply question).2 → finish engine) : Results Inquiry where
  Gives inquiry a := ∃ engine : Engine, start engine ∧ (engine.run inquiry).1 = a ∧
    finish (engine.run inquiry).2
  of_pure := by
    rintro α a b ⟨engine, -, hresult, -⟩
    exact hresult.symm
  of_bind := by
    have hrun {α : Type} (inquiry : Inquiry α) {engine : Engine} (h : start engine) :
        start (engine.run inquiry).2 ∧ (finish (engine.run inquiry).2 → finish engine) := by
      induction inquiry generalizing engine with
      | answer a => exact ⟨h, id⟩
      | ask question next ih =>
        obtain ⟨hnext, hback⟩ := ih _ (hstart engine question h)
        exact ⟨hnext, fun hlast => hfinish engine question h (hback hlast)⟩
    rintro α β inquiry f b ⟨engine, hengine, hresult, hlast⟩
    rw [run_bind] at hresult hlast
    obtain ⟨hmiddle, -⟩ := hrun inquiry hengine
    exact ⟨_, ⟨engine, hengine, rfl, (hrun (f _) hmiddle).2 hlast⟩, _, hmiddle, hresult, hlast⟩

/-- The results of inquiries on any engine. -/
def anyResults : Results Inquiry := results (fun _ => True) (fun _ => True) (fun _ _ h => h) fun _ _ h _ => h

theorem gives_run {α : Type} (inquiry : Inquiry α) (engine : Engine) :
    anyResults.Gives inquiry (engine.run inquiry).1 := ⟨engine, trivial, rfl, trivial⟩

/-! ## Results that stay the same -/

section Coherent
variable {settings : Settings} {functions : FunctionTable} {engine : Engine} {α : Type}

/-- The results of inquiries on engines that remember at least what a given one does. -/
def Coherent.resultsFrom (_ : engine.Coherent settings functions) : Results Inquiry :=
  results (fun later => later.Coherent settings functions ∧ engine.bodies.Extends later.bodies)
    (fun _ => True)
    (fun _ question h => ⟨(h.1.reply question).1, h.2.trans (h.1.reply question).2.1⟩)
    fun _ _ _ _ => trivial

theorem Coherent.gives_run (h : engine.Coherent settings functions) (inquiry : Inquiry α) :
    h.resultsFrom.Gives inquiry (engine.run inquiry).1 := ⟨engine, ⟨h, .refl _⟩, rfl, trivial⟩

/-- An inquiry that an engine completes has the same result later on. -/
theorem Coherent.eq_of_gives (h : engine.Coherent settings functions) {inquiry : Inquiry α} {a : α}
    (hcompletes : engine.completes inquiry = true) (ha : h.resultsFrom.Gives inquiry a) :
    a = (engine.run inquiry).1 := by
  obtain ⟨later, ⟨hlater, hextends⟩, rfl, -⟩ := ha
  exact (h.run_warm hlater hextends hcompletes).2

/-- The results of inquiries on engines that remember at most what a given one does afterwards. -/
def Coherent.resultsUntil (_ : engine.Coherent settings functions) : Results Inquiry :=
  results (Coherent settings functions) (fun early => early.bodies.Extends engine.bodies)
    (fun _ question h => (h.reply question).1)
    fun _ question h hafter => (h.reply question).2.1.trans hafter

theorem Coherent.gives_runUntil {early late : Engine} (hlate : late.Coherent settings functions)
    (h : early.Coherent settings functions) (inquiry : Inquiry α) (hrun : (early.run inquiry).2 = late) :
    hlate.resultsUntil.Gives inquiry (early.run inquiry).1 := ⟨early, h, rfl, hrun ▸ .refl _⟩

/-- What was found before and was not cut off then is found again. -/
theorem Coherent.eq_of_gives_until (h : engine.Coherent settings functions) {inquiry : Inquiry α} {a b : α}
    (hb : h.resultsFrom.Gives inquiry b) (ha : h.resultsUntil.Gives inquiry a)
    (hcompletes : ∀ early : Engine, (early.run inquiry).1 = a → early.completes inquiry = true) :
    b = a := by
  obtain ⟨early, hearly, hresult, hafter⟩ := ha
  obtain ⟨later, ⟨hlater, hextends⟩, rfl, -⟩ := hb
  have hmore := ((hearly.run inquiry).2.1.trans hafter).trans hextends
  exact (hearly.run_warm hlater hmore (hcompletes early hresult)).2.trans hresult

end Coherent
end Engine
end GraphCalc
