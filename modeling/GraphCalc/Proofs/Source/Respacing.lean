import GraphCalc.Proofs.Grammar.LookAhead

/-! # Texts spaced out

Each word of a text was found with what stands behind it in sight: a mark of an exponent counts only if
digits follow, a point may end a number, and a name goes on as far as it can. Here the words of a text are
written apart, with any blanks between them, and each is shown to be found again. Main notions and
statements:

* `Token.content`: what a token is, wherever it stands;
* `SpacedOut words text`: the text consists of these words in order, with blanks between neighbours and
  blanks or none at its ends;
* `IsLexeme.munch_of_blank`: in front of a blank every lexeme is the longest one;
* `Scans.spacedOut`: a run of the scanner through words that are spaced out;
* `spacedOut_keeps_tokens`: a text that is spaced out has the same tokens and the same tree.
-/

namespace GraphCalc
open GraphCalc.Text
set_option autoImplicit false

namespace Token

/-- What a token is, wherever it stands. -/
def content (t : Token) : Kind × String := (t.kind, t.text)

/-! ## Words with blanks between them -/

/-- The words in order, each with blanks behind it, of which there may be none behind the last word only. -/
inductive WordsAndBlanks : List String → List Char → Prop where
  | nil : WordsAndBlanks [] []
  | word {word words gap text} (hgap : ∀ c ∈ gap, isBlank c = true) (hapart : words ≠ [] → gap ≠ [])
      (h : WordsAndBlanks words text) : WordsAndBlanks (word :: words) (word.toList ++ (gap ++ text))

/-- A text that consists of the words in order, with blanks between neighbours and blanks or none at its
ends. -/
def SpacedOut (words : List String) (text : List Char) : Prop :=
  ∃ start rest, text = start ++ rest ∧ (∀ c ∈ start, isBlank c = true) ∧ WordsAndBlanks words rest

/-! ## Words in front of blanks -/

section Runs
variable {kind : Kind} {word gap before rest : List Char} {found : List Token}

/-- In front of a blank, or at the end of a text, every lexeme is the longest one. -/
theorem IsLexeme.munch_of_blank (h : IsLexeme kind word) (hrest : ∀ c ∈ rest.head?, isBlank c = true) :
    Munch kind word rest := by
  refine ⟨h, fun kind' word' h' hahead => ?_⟩
  cases rest with
  | nil =>
    rw [List.append_nil] at hahead
    exact hahead.length_le
  | cons c rest =>
    -- A longer lexeme would go on with the blank.
    by_contra hlonger
    have hmem : c ∈ word' := mem_of_longer_prefix hahead (Nat.lt_of_not_le hlonger)
    have hblank := hrest c rfl
    rw [h'.not_blank hmem] at hblank
    cases hblank

theorem Scans.blanks (h : Scans before found (gap ++ rest)) (hgap : ∀ c ∈ gap, isBlank c = true) :
    Scans (before ++ gap) found rest := by
  induction gap generalizing before with
  | nil => rwa [List.append_nil]
  | cons c gap ih =>
    obtain ⟨hc, hgap⟩ := List.forall_mem_cons.mp hgap
    rw [List.append_cons]
    exact ih (h.blank hc) hgap

/-- The scanner finds words that are spaced out, one by one. -/
theorem Scans.spacedOut {words : List String} (hwords : WordsAndBlanks words rest) {tokens : List Token}
    (htokens : tokens.map Token.text = words) (hlexeme : ∀ t ∈ tokens, IsLexeme t.kind t.text.toList)
    (h : Scans before found rest) :
    ∃ more, Scans (before ++ rest) (found ++ more) [] ∧ more.map content = tokens.map content := by
  induction hwords generalizing tokens before found with
  | nil =>
    obtain rfl := List.map_eq_nil_iff.mp htokens
    exact ⟨[], by simpa using h, rfl⟩
  | @word word words gap text hgap hapart hwords ih =>
    obtain ⟨t, tokens, rfl, rfl, rfl⟩ := List.map_eq_cons_iff.mp htokens
    obtain ⟨ht, hlexeme⟩ := List.forall_mem_cons.mp hlexeme
    have hbehind : ∀ c ∈ (gap ++ text).head?, isBlank c = true := by
      cases gap with
      | nil =>
        -- Without blanks behind it the word is the last one.
        have hlast : tokens.map Token.text = [] := not_not.mp fun hmore => hapart hmore rfl
        rw [hlast] at hwords
        cases hwords
        rintro c ⟨⟩
      | cons d gap =>
        rintro c hc
        obtain rfl : d = c := Option.some.inj hc
        exact hgap d List.mem_cons_self
    obtain ⟨more, hrun, hmore⟩ := ih rfl hlexeme ((h.token (ht.munch_of_blank hbehind)).blanks hgap)
    refine ⟨⟨t.kind, String.ofList t.text.toList, before.length⟩ :: more, ?_, ?_⟩
    · simpa using hrun
    · simp [content, hmore]

end Runs
end Token

/-! ## The tree of a text that is spaced out -/

section Whole
open GraphCalc.Token GraphCalc.Grammar
variable {callable : String → Bool} {text text' : List Char} {stream stream' : Stream}

theorem forall₂_alike_of_content {ts us : List Token} (h : us.map content = ts.map content) :
    List.Forall₂ (Alike id) ts us := by
  induction ts generalizing us with
  | nil =>
    obtain rfl := List.map_eq_nil_iff.mp h
    exact .nil
  | cons t ts ih =>
    obtain ⟨u, us, rfl, hcontent, htail⟩ := List.map_eq_cons_iff.mp h
    obtain ⟨hkind, htext⟩ := Prod.mk.inj hcontent
    exact .cons ⟨hkind, by rw [htext]; exact (ite_self _).symm⟩ (ih htail)

/-- Texts with the same tokens have the same tree, or none. -/
theorem read_of_content (callable : String → Bool) (hscan : scan text = .ok stream)
    (hscan' : scan text' = .ok stream')
    (hcontent : stream'.tokens.map content = stream.tokens.map content) :
    match Expr.read callable (String.ofList text) with
    | .ok e => Expr.read callable (String.ofList text') = .ok e
    | .error e => ∃ e', Expr.read callable (String.ofList text') = .error e' ∧
      e'.isNesting = e.isNesting := by
  have halike := @parseWithin_of_alike callable id Parse.room (fun _ => rfl) (fun _ _ => rfl) stream stream'
    (forall₂_alike_of_content hcontent)
  simp only [Expr.mapVars_id] at halike
  simp only [Expr.read, Expr.readWithin, String.toList_ofList, hscan, hscan']
  exact halike

/-- The words of a text, written apart, are its tokens again. Under every set of callable names they have
the same tree, or both texts are refused, for nesting or for what their tokens are. -/
theorem spacedOut_keeps_tokens (hscan : scan text = .ok stream)
    (hspaced : SpacedOut (stream.tokens.map Token.text) text') :
    (∃ stream', scan text' = .ok stream' ∧
      stream'.tokens.map content = stream.tokens.map content) ∧
    ∀ callable : String → Bool, match Expr.read callable (String.ofList text) with
      | .ok e => Expr.read callable (String.ofList text') = .ok e
      | .error e => ∃ e', Expr.read callable (String.ofList text') = .error e' ∧
        e'.isNesting = e.isNesting := by
  obtain ⟨start, rest, rfl, hstart, hwords⟩ := hspaced
  have hlexeme : ∀ t ∈ stream.tokens, IsLexeme t.kind t.text.toList := by
    intro t ht
    obtain ⟨after, -, hmunch⟩ := (scans_of_scan hscan).1.cut t ht
    exact hmunch.lexeme
  have hfront : Scans ([] ++ start) [] rest := Scans.nil.blanks hstart
  obtain ⟨tokens', hrun, hcontent⟩ := hfront.spacedOut hwords rfl hlexeme
  rw [List.nil_append, List.nil_append] at hrun
  exact ⟨⟨_, hrun.scan_eq_ok, hcontent⟩, fun callable =>
    read_of_content callable hscan hrun.scan_eq_ok hcontent⟩

/-- A point before a name ends a number, and no exponent begins there: the words `2.`, `e`, `+`, `.5` and
`x` are found again when they are written apart. -/
theorem exponentless_number_spaced_out :
    ∃ stream, scan "2.e+.5x".toList = .ok stream ∧
      SpacedOut (stream.tokens.map Token.text) "\t2. e\n+ .5  x".toList ∧
      (∃ stream', scan "\t2. e\n+ .5  x".toList = .ok stream' ∧
        stream'.tokens.map content = stream.tokens.map content) ∧
      Expr.read (fun _ => false) "\t2. e\n+ .5  x" = .ok (.binary .add
        (.binary .multiply (.number 2.0) (.var "e")) (.binary .multiply (.number 0.5) (.var "x"))) := by
  have hscan : scan "2.e+.5x".toList = .ok ⟨[⟨.number 2.0, "2.", 0⟩, ⟨.name, "e", 2⟩,
      ⟨.operator, "+", 3⟩, ⟨.number 0.5, ".5", 4⟩, ⟨.name, "x", 6⟩], 7⟩ := by decide +kernel
  have hread : Expr.read (fun _ => false) (String.ofList "2.e+.5x".toList) = .ok (.binary .add
      (.binary .multiply (.number 2.0) (.var "e"))
      (.binary .multiply (.number 0.5) (.var "x"))) := by
    rw [Expr.read, Expr.readWithin, String.toList_ofList, hscan]
    rfl
  have hblank : ∀ c ∈ [' ', '\t', '\n'], isBlank c = true := by simp [isBlank]
  have hgap (gap : List Char) (hgap : gap ⊆ [' ', '\t', '\n']) : ∀ c ∈ gap, isBlank c = true :=
    fun c hc => hblank c (hgap hc)
  have hspaced : SpacedOut ["2.", "e", "+", ".5", "x"] "\t2. e\n+ .5  x".toList := by
    refine ⟨['\t'], "2. e\n+ .5  x".toList, rfl, hgap _ (by simp), ?_⟩
    exact .word (hgap [' '] (by simp)) (by simp) <| .word (hgap ['\n'] (by simp)) (by simp) <|
      .word (hgap [' '] (by simp)) (by simp) <| .word (hgap [' ', ' '] (by simp)) (by simp) <|
        .word (hgap [] (by simp)) (by simp) .nil
  obtain ⟨htokens, htree⟩ := spacedOut_keeps_tokens hscan hspaced
  have hsame := htree fun _ => false
  rw [hread] at hsame
  exact ⟨_, hscan, hspaced, htokens, hsame⟩

end Whole
end GraphCalc
