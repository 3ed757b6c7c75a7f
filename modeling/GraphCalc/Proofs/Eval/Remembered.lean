import GraphCalc.Eval.Engine
import GraphCalc.Proofs.Eval.Limits
import GraphCalc.Proofs.Grammar.MoreRoom

/-! # Evaluation with a memory

While an engine evaluates a tree it looks bodies up in its memory, or reads them in the room that is left
and remembers them. What it remembers shows only where reading a body would nest too deep. Main notions
and statements:

* `Evaluation.on`: the outcome of an evaluation with a memory, and the memory after it;
* `Memo.Sound`: a table whose answers are right, and `Memo.Faithful`: a memory that has for each name
  what the body of its definition reads as;
* `Memo.Extends`: one memory has all that another one has;
* `Parallel.lockstep`: two evaluations go on alike with one memory;
* `Parallel.settling`: an evaluation with a memory ends as one with all bodies at hand, unless nesting
  cuts it off;
* `Parallel.warming`: an evaluation that nesting does not cut off goes on alike with a memory that has
  more;
* `fetches_lockstep`, `fetches_settling`, `fetches_warming`: how bodies are got in these.
-/

namespace GraphCalc
set_option autoImplicit false

/-! ## Steps of an evaluation -/

namespace Evaluation
variable {α β : Type}

/-- An evaluation with a memory. -/
def on (r : Evaluation α) (bodies : Memo Expr) : Except EvalError α × Memo Expr := r.run.run bodies

theorem on_bind (r : Evaluation α) (f : α → Evaluation β) (bodies : Memo Expr) :
    (r >>= f).on bodies = match r.on bodies with
      | (.ok a, bodies) => (f a).on bodies
      | (.error e, bodies) => (.error e, bodies) := by
  unfold on
  rw [ExceptT.run_bind, StateT.run_bind]
  generalize r.run.run bodies = found
  rcases found with ⟨_ | _, _⟩ <;> rfl

theorem on_sampleOf (r : Evaluation Float) (bodies : Memo Expr) :
    (sampleOf r).on bodies = (sampleOf (r.on bodies).1, (r.on bodies).2) := by
  have htry (handle : EvalError → Evaluation (Option Float)) (s : Evaluation (Option Float)) :
      (tryCatch s handle).on bodies = match s.on bodies with
        | (.ok y, bodies) => (.ok y, bodies)
        | (.error e, bodies) => (handle e).on bodies := by
    unfold on
    rw [ExceptT.run_tryCatch, StateT.run_bind]
    generalize s.run.run bodies = found
    rcases found with ⟨_ | _, _⟩ <;> rfl
  unfold sampleOf
  rw [htry, on_bind]
  rcases r.on bodies with ⟨e | y, bodies⟩
  · cases e <;> rfl
  · rfl

theorem on_fetch (functions : FunctionTable) (d : Definition) (room : Room) (bodies : Memo Expr) :
    (Engine.fetch functions d room).on bodies = match bodies.find? d.name with
      | some body => (.ok body, bodies)
      | none => match functions.readWithin room.forReading d.body with
        | .ok body => (.ok body, bodies.keep none d.name body)
        | .error e => (.error (.unreadable e), bodies) := by
  rw [Engine.fetch, on_bind]
  show (match bodies.find? d.name with | some body => _ | none => _ : Evaluation Expr).on bodies = _
  cases bodies.find? d.name with
  | some body => rfl
  | none => cases functions.readWithin room.forReading d.body <;> rfl

end Evaluation

/-! ## Memories -/

namespace Memo
variable {β : Type}

theorem lookup_filter_ne {key key' : String} (h : key' ≠ key) (entries : List (String × β)) :
    (entries.filter (·.1 != key)).lookup key' = entries.lookup key' := by
  induction entries with
  | nil => rfl
  | cons entry entries ih =>
    obtain ⟨name, answer⟩ := entry
    by_cases hname : name = key
    · have hkey : (key' == name) = false := by simpa [hname] using h
      rw [List.filter_cons_of_neg (by simp [hname]), ih, List.lookup_cons, hkey]
    · rw [List.filter_cons_of_pos (by simp [hname]), List.lookup_cons, List.lookup_cons, ih]

/-- In an unbounded table the new answer is found under its key, and no other key is affected. -/
theorem find?_keep (memo : Memo β) (key key' : String) (answer : β) :
    (memo.keep none key answer).find? key' = if key' = key then some answer else memo.find? key' := by
  unfold find? keep
  dsimp only
  rw [List.lookup_cons]
  by_cases h : key' = key
  · rw [if_pos h, beq_iff_eq.mpr h]
  · rw [if_neg h, beq_eq_false_iff_ne.mpr h, lookup_filter_ne h]

theorem lookup_of_lookup_take {key : String} {answer : β} (n : ℕ) (entries : List (String × β))
    (h : (entries.take n).lookup key = some answer) : entries.lookup key = some answer := by
  induction n generalizing entries with
  | zero => cases h
  | succ n ih =>
    cases entries with
    | nil => cases h
    | cons entry entries =>
      obtain ⟨name, kept⟩ := entry
      rw [List.take_succ_cons, List.lookup_cons] at h
      rw [List.lookup_cons]
      cases hname : key == name with
      | true => simpa only [hname] using h
      | false => exact ih entries (by simpa only [hname] using h)

/-- A bound only makes a table forget. -/
theorem find?_of_find?_keep {memo : Memo β} {bound : Option ℕ} {key key' : String} {answer answer' : β}
    (h : (memo.keep bound key answer).find? key' = some answer') :
    (memo.keep none key answer).find? key' = some answer' := by
  cases bound with
  | none => exact h
  | some n => exact lookup_of_lookup_take n _ h

/-- Every kept answer is right for its key. -/
def Sound (right : String → β → Prop) (memo : Memo β) : Prop :=
  ∀ key answer, memo.find? key = some answer → right key answer

section Soundness
variable {right : String → β → Prop} {memo : Memo β}

theorem sound_empty : (empty : Memo β).Sound right := by
  rintro key answer ⟨⟩

theorem Sound.keep (h : memo.Sound right) (bound : Option ℕ) {key : String} {answer : β}
    (hright : right key answer) : (memo.keep bound key answer).Sound right := by
  intro key' answer' hfind
  have hkept := find?_of_find?_keep hfind
  rw [find?_keep] at hkept
  split at hkept
  · next heq =>
    obtain rfl := Option.some.inj hkept
    exact heq ▸ hright
  · exact h key' answer' hkept

end Soundness

/-- A memory has all that another one has. -/
def Extends (memo memo' : Memo β) : Prop :=
  ∀ key answer, memo.find? key = some answer → memo'.find? key = some answer

theorem Extends.refl (memo : Memo β) : memo.Extends memo := fun _ _ h => h

theorem Extends.trans {memo memo' memo'' : Memo β} (h : memo.Extends memo') (h' : memo'.Extends memo'') :
    memo.Extends memo'' :=
  fun key answer hfind => h' key answer (h key answer hfind)

theorem Extends.keep {memo memo' : Memo β} (h : memo.Extends memo') (key : String) (answer : β) :
    (memo.keep none key answer).Extends (memo'.keep none key answer) := by
  intro key' answer' hfind
  rw [find?_keep] at hfind ⊢
  split at hfind
  · next heq => rwa [if_pos heq]
  · next hne =>
    rw [if_neg hne]
    exact h key' answer' hfind

/-- A new answer under a key that had none leaves all that there was. -/
theorem extends_keep {memo : Memo β} {key : String} (hnone : memo.find? key = none) (answer : β) :
    memo.Extends (memo.keep none key answer) := by
  intro key' answer' hfind
  have hne : key' ≠ key := by
    rintro rfl
    cases hnone.symm.trans hfind
  rw [find?_keep, if_neg hne, hfind]

/-- A memory that has an answer already need not keep it. -/
theorem Extends.keep_of_find? {memo memo' : Memo β} (h : memo.Extends memo') {key : String} {answer : β}
    (hfind : memo'.find? key = some answer) : (memo.keep none key answer).Extends memo' := by
  intro key' answer' hkept
  rw [find?_keep] at hkept
  split at hkept
  · next heq =>
    rw [heq, hfind, hkept]
  · exact h key' answer' hkept

end Memo

/-- Every tree that is remembered for a name is what the body of its definition reads as, in the room
that bodies have at most. -/
abbrev Memo.Faithful (functions : FunctionTable) (limit : Room) (bodies : Memo Expr) : Prop :=
  bodies.Sound fun name tree =>
    ∃ d, functions.find? name = some d ∧ functions.readWithin limit d.body = .ok tree

/-! ## Room for reading -/

theorem FunctionTable.name_of_find? {functions : FunctionTable} {name : String} {d : Definition}
    (h : functions.find? name = some d) : d.name = name := by
  simpa using List.find?_some h

namespace Room

/-- A room that is no wider than another. -/
def AtMost (room room' : Room) : Prop := ∀ m, room' = some m → ∃ n, room = some n ∧ n ≤ m

theorem atMost_none (room : Room) : room.AtMost none := by
  rintro m ⟨⟩

theorem AtMost.some {m n : ℕ} (h : m ≤ n) : AtMost (some m) (some n) := by
  rintro k ⟨⟩
  exact ⟨m, rfl, h⟩

/-- Bodies that are read on the way have at most a given room. -/
def ReadsIn (limit room : Room) : Prop := room.forReading.AtMost limit

theorem ReadsIn.pred {limit : Room} {n : ℕ} (h : ReadsIn limit (Option.some (n + 1))) :
    ReadsIn limit (Option.some n) := by
  intro m hm
  obtain ⟨k, hk, hle⟩ := h m hm
  obtain rfl := Option.some.inj hk
  exact ⟨_, rfl, by omega⟩

end Room

section Reading
variable {functions : FunctionTable} {text : String}

/-- A text read in less room has the same answer, or is too deep. -/
theorem FunctionTable.readWithin_of_atMost {room limit : Room} (h : room.AtMost limit) (text : String) :
    Grammar.TooDeep (functions.readWithin room text) ∨
      functions.readWithin room text = functions.readWithin limit text := by
  unfold FunctionTable.readWithin
  rcases room with _ | n
  · rcases limit with _ | m
    · exact .inr rfl
    · obtain ⟨n, hn, -⟩ := h m rfl
      cases hn
  · rcases limit with _ | m
    · rcases Nat.le_total n (Expr.roomFor text) with hle | hle
      · exact Grammar.within_readWithin hle text
      · exact .inr (Grammar.readWithin_of_roomFor_le hle)
    · obtain ⟨k, hk, hle⟩ := h m rfl
      obtain rfl := Option.some.inj hk
      exact Grammar.within_readWithin hle text

/-- A tree that a text reads as in less room is the one in more. -/
theorem FunctionTable.readWithin_ok {room limit : Room} (h : room.AtMost limit) {e : Expr}
    (hread : functions.readWithin room text = .ok e) : functions.readWithin limit text = .ok e := by
  rcases functions.readWithin_of_atMost h text with hdeep | hsame
  · rw [hread] at hdeep
    exact absurd hdeep Grammar.not_tooDeep_ok
  · exact hsame.symm.trans hread

/-- What is right about bodies in some room is right in more room. -/
theorem Memo.Faithful.mono {limit limit' : Room} {bodies : Memo Expr}
    (h : bodies.Faithful functions limit) (hlimit : limit.AtMost limit') :
    bodies.Faithful functions limit' := by
  intro name tree hfind
  obtain ⟨d, hd, hread⟩ := h name tree hfind
  exact ⟨d, hd, FunctionTable.readWithin_ok hlimit hread⟩

/-- With no limit no text is too deep. -/
theorem FunctionTable.not_tooDeep_readWithin_none :
    ¬ Grammar.TooDeep (functions.readWithin none text) :=
  fun hdeep => Nat.lt_irrefl _ (Grammar.lt_roomFor_of_tooDeep hdeep)

end Reading

/-! ## Evaluations side by side -/

section Memories
variable {functions functions' : FunctionTable} {limit : Room} {names : String → Prop}

/-- Evaluations that go on alike with one memory. -/
def Parallel.lockstep (functions : FunctionTable) (limit : Room) : Parallel Evaluation Evaluation where
  Rel r s := ∀ bodies, bodies.Faithful functions limit →
    s.on bodies = r.on bodies ∧ (r.on bodies).2.Faithful functions limit
  Rooms room room' := room = room' ∧ Room.ReadsIn limit room
  returns _ _ h := ⟨rfl, h⟩
  throws _ _ h := ⟨rfl, h⟩
  binds := by
    intro _ _ r s f g h hf bodies hbodies
    obtain ⟨hsame, hafter⟩ := h bodies hbodies
    rw [Evaluation.on_bind, Evaluation.on_bind, hsame]
    generalize r.on bodies = found at hafter
    rcases found with ⟨e | a, bodies'⟩
    · exact ⟨rfl, hafter⟩
    · exact hf a bodies' hafter
  samples := by
    intro r s h bodies hbodies
    obtain ⟨hsame, hafter⟩ := h bodies hbodies
    rw [Evaluation.on_sampleOf, Evaluation.on_sampleOf, hsame]
    exact ⟨rfl, hafter⟩
  nests := by
    rintro _ room _ f g ⟨rfl, hroom⟩ h
    rcases room with _ | _ | n
    · exact h none none ⟨rfl, hroom⟩
    · exact fun bodies hbodies => ⟨rfl, hbodies⟩
    · exact h (some n) (some n) ⟨rfl, hroom.pred⟩

/-- An evaluation with a memory that ends as one without rooms and memories does, unless nesting cuts it
off, which needs a limited room. -/
def Parallel.settling (functions : FunctionTable) (limit : Room) (limited : Prop) :
    Parallel Evaluation (Except EvalError) where
  Rel r s := ∀ bodies, bodies.Faithful functions limit →
    bodies.Extends (r.on bodies).2 ∧ (r.on bodies).2.Faithful functions limit ∧
      ((r.on bodies).1 = s ∨ limited ∧ isCutOff (r.on bodies).1 = true)
  Rooms room room' := room' = none ∧ Room.ReadsIn limit room ∧ (room ≠ none → limited)
  returns _ bodies h := ⟨.refl bodies, h, .inl rfl⟩
  throws _ bodies h := ⟨.refl bodies, h, .inl rfl⟩
  binds := by
    intro _ _ r s f g h hf bodies hbodies
    obtain ⟨hgrown, hafter, hends⟩ := h bodies hbodies
    rw [Evaluation.on_bind]
    generalize r.on bodies = found at hgrown hafter hends
    rcases found with ⟨e | a, bodies'⟩
    · refine ⟨hgrown, hafter, hends.imp ?_ id⟩
      rintro rfl
      rfl
    · rcases hends with rfl | ⟨-, hcut⟩
      · obtain ⟨hgrown', hafter', hends'⟩ := hf a bodies' hafter
        exact ⟨hgrown.trans hgrown', hafter', hends'⟩
      · cases hcut
  samples := by
    intro r s h bodies hbodies
    obtain ⟨hgrown, hafter, hends⟩ := h bodies hbodies
    rw [Evaluation.on_sampleOf]
    refine ⟨hgrown, hafter, hends.imp (congrArg sampleOf) fun ⟨hlimited, hcut⟩ => ⟨hlimited, ?_⟩⟩
    generalize (r.on bodies).1 = outcome at hcut
    rcases outcome with e | y
    · cases e <;> exact hcut
    · cases hcut
  nests := by
    rintro _ room _ f g ⟨rfl, hroom, hlimited⟩ h
    rcases room with _ | _ | n
    · exact h none none ⟨rfl, hroom, hlimited⟩
    · exact fun bodies hbodies => ⟨.refl bodies, hbodies, .inr ⟨hlimited nofun, rfl⟩⟩
    · exact h (some n) none ⟨rfl, hroom.pred, fun _ => hlimited nofun⟩

/-- Evaluations with two memories, of which the second has more: where nesting does not cut the first
one off, the second ends as it does, and still has more. -/
def Parallel.warming (functions : FunctionTable) (limit : Room) : Parallel Evaluation Evaluation where
  Rel r s := ∀ cold warm, cold.Faithful functions limit → warm.Faithful functions limit →
    cold.Extends warm → isCutOff (r.on cold).1 = false →
      (s.on warm).1 = (r.on cold).1 ∧ (r.on cold).2.Extends (s.on warm).2 ∧
        (r.on cold).2.Faithful functions limit ∧ (s.on warm).2.Faithful functions limit
  Rooms room room' := room = room' ∧ Room.ReadsIn limit room
  returns _ _ _ hcold hwarm h _ := ⟨rfl, h, hcold, hwarm⟩
  throws _ _ _ hcold hwarm h _ := ⟨rfl, h, hcold, hwarm⟩
  binds := by
    intro _ _ r s f g h hf cold warm hcold hwarm hextends hcut
    rw [Evaluation.on_bind] at hcut ⊢
    rw [Evaluation.on_bind]
    have hfirst := h cold warm hcold hwarm hextends
    generalize r.on cold = found at hcut hfirst
    generalize s.on warm = found' at hfirst
    rcases found with ⟨e | a, cold'⟩
    · obtain ⟨houtcome, hafter⟩ := hfirst hcut
      rcases found' with ⟨_, warm'⟩
      obtain rfl := houtcome
      exact ⟨rfl, hafter⟩
    · obtain ⟨houtcome, hmore, hcold', hwarm'⟩ := hfirst rfl
      rcases found' with ⟨_, warm'⟩
      obtain rfl := houtcome
      exact hf a cold' warm' hcold' hwarm' hmore hcut
  samples := by
    intro r s h cold warm hcold hwarm hextends hcut
    rw [Evaluation.on_sampleOf] at hcut ⊢
    rw [Evaluation.on_sampleOf]
    have hfirst := h cold warm hcold hwarm hextends
    generalize r.on cold = found at hcut hfirst
    have huncut : isCutOff found.1 = false := by
      rcases found with ⟨e | y, _⟩
      · cases e <;> exact hcut
      · rfl
    obtain ⟨houtcome, hafter⟩ := hfirst huncut
    exact ⟨congrArg sampleOf houtcome, hafter⟩
  nests := by
    rintro _ room _ f g ⟨rfl, hroom⟩ h
    rcases room with _ | _ | n
    · exact h none none ⟨rfl, hroom⟩
    · intro cold warm _ _ _ hcut
      cases hcut
    · exact h (some n) (some n) ⟨rfl, hroom.pred⟩

/-! ## Getting bodies -/

/-- A body that is remembered is what it reads as; one that is not is read so, or is too deep for the
room that is left. -/
theorem fetch_cases {name : String} {d : Definition} (hfind : functions.find? name = some d)
    {room : Room} (hroom : Room.ReadsIn limit room) {bodies : Memo Expr}
    (h : bodies.Faithful functions limit) :
    (∃ body, bodies.find? d.name = some body ∧ functions.readWithin limit d.body = .ok body ∧
      (Engine.fetch functions d room).on bodies = (.ok body, bodies)) ∨
    (bodies.find? d.name = none ∧ ∃ body, functions.readWithin limit d.body = .ok body ∧
      functions.readWithin room.forReading d.body = .ok body ∧
      (Engine.fetch functions d room).on bodies = (.ok body, bodies.keep none d.name body)) ∨
    (bodies.find? d.name = none ∧ ∃ e, functions.readWithin limit d.body = .error e ∧
      functions.readWithin room.forReading d.body = .error e ∧
      (Engine.fetch functions d room).on bodies = (.error (.unreadable e), bodies)) ∨
    (bodies.find? d.name = none ∧ ∃ p, functions.readWithin room.forReading d.body = .error (.tooDeep p) ∧
      (Engine.fetch functions d room).on bodies = (.error (.unreadable (.tooDeep p)), bodies)) := by
  rw [Evaluation.on_fetch]
  cases hkept : bodies.find? d.name with
  | some body =>
    obtain ⟨d', hd', hread⟩ := h d.name body hkept
    rw [FunctionTable.name_of_find? hfind, hfind] at hd'
    obtain rfl := Option.some.inj hd'
    exact .inl ⟨body, rfl, hread, rfl⟩
  | none =>
    rcases functions.readWithin_of_atMost hroom d.body with hdeep | hsame
    · obtain ⟨p, hp⟩ := hdeep
      exact .inr (.inr (.inr ⟨rfl, p, hp, by rw [hp]⟩))
    · cases hread : functions.readWithin room.forReading d.body with
      | ok body => exact .inr (.inl ⟨rfl, body, hsame.symm.trans hread, rfl, rfl⟩)
      | error e => exact .inr (.inr (.inl ⟨rfl, e, hsame.symm.trans hread, rfl, rfl⟩))

theorem fetches_lockstep (h : functions.Shares names functions') :
    (Parallel.lockstep functions limit).Fetches names functions limit (Engine.fetch functions)
      (Engine.fetch functions') := by
  rintro head d hhead hfind room _ ⟨rfl, hroom⟩ f g hfg bodies hbodies
  have hfetch : (Engine.fetch functions' d room).on bodies =
      (Engine.fetch functions d room).on bodies := by
    rw [Evaluation.on_fetch, Evaluation.on_fetch, h.readWithin_eq (h.closed head d hhead hfind)]
  rw [Evaluation.on_bind, Evaluation.on_bind, hfetch]
  rcases fetch_cases hfind hroom hbodies with ⟨body, -, hread, hon⟩ | ⟨-, body, hread, -, hon⟩ |
    ⟨-, e, -, -, hon⟩ | ⟨-, p, -, hon⟩
  · rw [hon]
    exact hfg body hread bodies hbodies
  · rw [hon]
    exact hfg body hread _ (hbodies.keep none ⟨d, FunctionTable.name_of_find? hfind ▸ hfind, hread⟩)
  · rw [hon]
    exact ⟨rfl, hbodies⟩
  · rw [hon]
    exact ⟨rfl, hbodies⟩

theorem fetches_settling {limited : Prop} :
    (Parallel.settling functions limit limited).Fetches (fun _ => True) functions limit
      (Engine.fetch functions) (functions.atHand limit) := by
  rintro head d - hfind room _ ⟨rfl, hroom, hlimited⟩ f g hfg bodies hbodies
  rw [Evaluation.on_bind, FunctionTable.atHand]
  rcases fetch_cases hfind hroom hbodies with ⟨body, -, hread, hon⟩ | ⟨hkept, body, hread, -, hon⟩ |
    ⟨-, e, hread, -, hon⟩ | ⟨-, p, hdeep, hon⟩
  · rw [hon, hread]
    exact hfg body hread bodies hbodies
  · rw [hon, hread]
    have hkeep := hbodies.keep none ⟨d, FunctionTable.name_of_find? hfind ▸ hfind, hread⟩
    obtain ⟨hgrown, hafter, hends⟩ := hfg body hread _ hkeep
    exact ⟨(Memo.extends_keep hkept body).trans hgrown, hafter, hends⟩
  · rw [hon, hread]
    exact ⟨.refl bodies, hbodies, .inl rfl⟩
  · rw [hon]
    refine ⟨.refl bodies, hbodies, .inr ⟨hlimited ?_, rfl⟩⟩
    rintro rfl
    exact FunctionTable.not_tooDeep_readWithin_none ⟨p, hdeep⟩

theorem fetches_warming :
    (Parallel.warming functions limit).Fetches (fun _ => True) functions limit (Engine.fetch functions)
      (Engine.fetch functions) := by
  rintro head d - hfind room _ ⟨rfl, hroom⟩ f g hfg cold warm hcold hwarm hextends hcut
  have hname := FunctionTable.name_of_find? hfind
  rw [Evaluation.on_bind] at hcut ⊢
  rw [Evaluation.on_bind]
  rcases fetch_cases hfind hroom hcold with ⟨body, hkept, hread, hon⟩ | ⟨-, body, hread, hroomy, hon⟩ |
    ⟨-, e, hread, hroomy, hon⟩ | ⟨-, p, -, hon⟩
  · have hwarmer : (Engine.fetch functions d room).on warm = (.ok body, warm) := by
      rw [Evaluation.on_fetch, hextends _ _ hkept]
    rw [hon] at hcut ⊢
    rw [hwarmer]
    exact hfg body hread cold warm hcold hwarm hextends hcut
  · rw [hon] at hcut ⊢
    have hkeep := hcold.keep none ⟨d, hname ▸ hfind, hread⟩
    rcases fetch_cases hfind hroom hwarm with ⟨body', hkept, hread', hon'⟩ | ⟨-, body', hread', -, hon'⟩ |
      ⟨-, e, hread', -⟩ | ⟨-, p, hdeep, -⟩
    · obtain rfl := Except.ok.inj (hread'.symm.trans hread)
      rw [hon']
      exact hfg _ hread _ warm hkeep hwarm (hextends.keep_of_find? hkept) hcut
    · obtain rfl := Except.ok.inj (hread'.symm.trans hread)
      rw [hon']
      exact hfg _ hread _ _ hkeep (hwarm.keep none ⟨d, hname ▸ hfind, hread⟩) (hextends.keep _ _) hcut
    · cases hread'.symm.trans hread
    · cases hdeep.symm.trans hroomy
  · rw [hon]
    rcases fetch_cases hfind hroom hwarm with ⟨body, -, hread', -⟩ | ⟨-, body, hread', -⟩ |
      ⟨-, e', hread', -, hon'⟩ | ⟨-, p, hdeep, hon'⟩
    · cases hread'.symm.trans hread
    · cases hread'.symm.trans hread
    · obtain rfl := Except.error.inj (hread'.symm.trans hread)
      rw [hon']
      exact ⟨rfl, hextends, hcold, hwarm⟩
    · obtain rfl := Except.error.inj (hdeep.symm.trans hroomy)
      rw [hon']
      exact ⟨rfl, hextends, hcold, hwarm⟩
  · rw [hon] at hcut
    cases hcut

end Memories
end GraphCalc
