import GraphCalc.Proofs.Line.Definition
import GraphCalc.Proofs.Source.Scanning

/-! # Renaming a name in a text

A whole word is replaced without regard to tokens. Where the tokens of the text agree with its words,
the renamed text has the same tokens with the name replaced. Main notions and statements:

* `StandsAt word text i`: a word stands at a place between characters that are no part of a name;
* `RenamesWell name text t`: the word and the token at a place are the same thing;
* `Scans.renamed`: a run of the scanner through such tokens is a run through the renamed text;
* `scan_renameWord_iff`: the tokens of the renamed text are the renamed tokens exactly then.
-/

namespace GraphCalc
open GraphCalc.Text
set_option autoImplicit false

/-! ## Whole words -/

/-- Between `before` and what comes behind it, a whole word starts `rest`. -/
def Stands (word before rest : List Char) : Prop :=
  (∀ c ∈ before.getLast?, isNamePart c = false) ∧
    ∃ after, rest = word ++ after ∧ StopsAt isNamePart after

/-- A whole word stands at a place of a text. -/
def StandsAt (word text : List Char) (i : ℕ) : Prop := Stands word (text.take i) (text.drop i)

/-- No whole word stands in front of any character of `read`. -/
def Untouched (word before read rest : List Char) : Prop :=
  ∀ front c back, read = front ++ c :: back → ¬ Stands word (before ++ front) (c :: back ++ rest)

/-- The rest of a text with a word replaced, behind the part `before`. -/
def renamedRest (old new before rest : List Char) : List Char :=
  renameFrom old new ((before.getLast?.map isNamePart).getD false) 0 rest

section Words
variable {word before read rest : List Char} {c : Char}

theorem standsAt_length (word before rest : List Char) :
    StandsAt word (before ++ rest) before.length ↔ Stands word before rest := by
  rw [StandsAt, List.take_left, List.drop_left]

theorem standsAt_front (word before front rest : List Char) :
    StandsAt word (before ++ (front ++ rest)) (before.length + front.length) ↔
      Stands word (before ++ front) rest := by
  rw [← List.append_assoc, ← List.length_append, standsAt_length]

theorem untouched_nil (word before rest : List Char) : Untouched word before [] rest := by
  rintro front c back h
  cases front <;> cases h

theorem untouched_cons : Untouched word before (c :: read) rest ↔
    ¬ Stands word before (c :: read ++ rest) ∧ Untouched word (before ++ [c]) read rest := by
  constructor
  · intro h
    refine ⟨by simpa using h [] c read rfl, fun front d back hread => ?_⟩
    simpa using h (c :: front) d back (by rw [hread]; rfl)
  · rintro ⟨hfirst, hmore⟩ front d back hread
    cases front with
    | nil =>
      obtain ⟨rfl, rfl⟩ := List.cons.inj hread
      simpa using hfirst
    | cons e front =>
      obtain ⟨rfl, rfl⟩ := List.cons.inj hread
      simpa using hmore front d back rfl

theorem not_stands_of_part (hc : isNamePart c = true) : ¬ Stands word (before ++ [c]) rest := by
  rintro ⟨hlast, -⟩
  rw [hlast c (by simp)] at hc
  cases hc

theorem Stands.stopsAt (h : Stands word before (word ++ rest)) : StopsAt isNamePart rest := by
  obtain ⟨-, after, hcut, hafter⟩ := h
  rwa [List.append_cancel_left hcut]

theorem isSome_afterWord?_iff {text : List Char} :
    (afterWord? word text).isSome = true ↔ ∃ after, text = word ++ after ∧ StopsAt isNamePart after := by
  unfold afterWord? afterStart?
  by_cases h : word <+: text
  · obtain ⟨after, rfl⟩ := h
    rw [if_pos (List.isPrefixOf_iff_prefix.mpr (List.prefix_append ..)), List.drop_left]
    cases after with
    | nil => simp [StopsAt]
    | cons d after =>
      cases hd : isNamePart d <;> simp [StopsAt, hd]
  · rw [if_neg (by rwa [List.isPrefixOf_iff_prefix])]
    simp only [Option.isSome_none, Bool.false_eq_true, false_iff]
    rintro ⟨after, rfl, -⟩
    exact h (List.prefix_append ..)

theorem stands_iff : Stands word before rest ↔
    (!((before.getLast?.map isNamePart).getD false) && (afterWord? word rest).isSome) = true := by
  rw [Bool.and_eq_true, isSome_afterWord?_iff, Stands]
  cases before.getLast? <;> simp

end Words

/-! ### Replacing -/

section Replace
variable {old new before rest : List Char} {c : Char}

theorem renamedRest_nil (old new before : List Char) : renamedRest old new before [] = [] := by
  rw [renamedRest, renameFrom]

theorem renamedRest_keep (h : ¬ Stands old before (c :: rest)) :
    renamedRest old new before (c :: rest) = c :: renamedRest old new (before ++ [c]) rest := by
  rw [stands_iff] at h
  simp [renamedRest, renameFrom, h]

theorem renameFrom_skip (old new word before rest : List Char) :
    renameFrom old new ((before.getLast?.map isNamePart).getD false) word.length (word ++ rest) =
      renamedRest old new (before ++ word) rest := by
  induction word generalizing before with
  | nil => rw [List.append_nil]; rfl
  | cons c word ih =>
    have hskip := ih (before ++ [c])
    rw [List.getLast?_concat, List.append_assoc] at hskip
    rw [List.cons_append, List.length_cons, renameFrom]
    exact hskip

theorem renamedRest_replace (hold : old ≠ []) (h : Stands old before (old ++ rest)) :
    renamedRest old new before (old ++ rest) = new ++ renamedRest old new (before ++ old) rest := by
  obtain ⟨c, more, rfl⟩ := List.exists_cons_of_ne_nil hold
  rw [stands_iff] at h
  have hskip := renameFrom_skip (c :: more) new more (before ++ [c]) rest
  rw [List.getLast?_concat, List.append_assoc] at hskip
  rw [renamedRest, List.cons_append, renameFrom, if_pos (by rwa [List.cons_append] at h)]
  exact congrArg (new ++ ·) hskip

theorem renamedRest_untouched {read : List Char} (h : Untouched old before read rest) :
    renamedRest old new before (read ++ rest) = read ++ renamedRest old new (before ++ read) rest := by
  induction read generalizing before with
  | nil => simp
  | cons c read ih =>
    obtain ⟨hfirst, hmore⟩ := untouched_cons.mp h
    rw [List.cons_append, renamedRest_keep (by simpa using hfirst), ih hmore]
    simp

/-- What starts the renamed text and holds nothing of the new word was there before. -/
theorem exists_of_isPrefix_renamedRest {x : Char} {read : List Char} (hold : old ≠ [])
    (h : read <+: renamedRest old [x] before rest) (hx : x ∉ read) :
    ∃ after, rest = read ++ after ∧ Untouched old before read after := by
  induction read generalizing before rest with
  | nil => exact ⟨rest, rfl, untouched_nil _ _ _⟩
  | cons c read ih =>
    by_cases hstands : Stands old before rest
    · obtain ⟨-, after, rfl, -⟩ := id hstands
      rw [renamedRest_replace hold hstands, List.singleton_append] at h
      rw [(List.cons_prefix_cons.mp h).1] at hx
      exact absurd (List.mem_cons_self ..) hx
    · cases rest with
      | nil =>
        rw [renamedRest_nil] at h
        cases List.prefix_nil.mp h
      | cons d rest =>
        rw [renamedRest_keep hstands] at h
        obtain ⟨rfl, hahead⟩ := List.cons_prefix_cons.mp h
        obtain ⟨after, rfl, hmore⟩ := ih hahead (List.not_mem_of_not_mem_cons hx)
        exact ⟨after, rfl, untouched_cons.mpr ⟨hstands, hmore⟩⟩

end Replace

namespace Token

/-! ## Tokens and words -/

/-- A name, or the new one for the old. -/
def renamedName (old new name : String) : String := if name = old then new else name

/-- A token is renamed as the words of the text are: if it is the name, then a whole word stands there
and none right behind it; and in a number no whole word stands. -/
structure RenamesWell (word text : List Char) (t : Token) : Prop where
  name : t.kind = .name → t.text.toList = word →
    StandsAt word text t.position ∧ ¬ StandsAt word text (t.position + word.length)
  number : ∀ v, t.kind = .number v → ∀ i, Covers t i → ¬ StandsAt word text i

/-! ### Characters of lexemes -/

theorem IsLexeme.not_mem {kind : Kind} {c : Char} {more : List Char} (h : IsLexeme kind (c :: more))
    (hc : isNameStart c = false) : 'x' ∉ c :: more := by
  generalize hword : c :: more = word at h
  cases h with
  | number hn => exact hn.not_mem (by decide) (by decide)
  | word first => cases hword; rw [hc] at first; cases first
  | constant h | operator h =>
    cases hword
    rw [List.mem_singleton]
    rintro rfl
    exact absurd h (by decide)
  | opening | closing | comma => cases hword; decide

theorem isLexeme_of_isName {name : String} (h : IsName name) : IsLexeme .name name.toList := by
  obtain ⟨c, more, rfl, ⟨hc, hmore⟩ | ⟨hc, rfl⟩⟩ := h <;> rw [String.toList_ofList]
  · exact .word hc hmore
  · exact .constant hc

section Munched
variable {kind : Kind} {c : Char} {name before word rest : List Char}

/-- Where a whole word starts with a token, it is that token. -/
theorem Munch.eq_of_stands (hname : IsLexeme .name name) (h : Munch kind word rest)
    (hstands : Stands name before (word ++ rest)) : kind = .name ∧ word = name := by
  obtain ⟨-, after, hcut, hafter⟩ := hstands
  obtain ⟨c, more, rfl⟩ := h.lexeme.exists_cons
  obtain ⟨d, letters, rfl⟩ := hname.exists_cons
  simp only [List.cons_append, List.cons.injEq] at hcut
  obtain ⟨rfl, hcut⟩ := hcut
  have hdigit : (isDigitLike c || c == '.') = false := by
    rw [Bool.eq_false_iff]
    intro hdigit
    obtain ⟨n, -, hkind, -⟩ := hname.exists_numeral hdigit
    cases hkind
  cases hc : isNameStart c with
  | true =>
    -- Both are the run of letters that starts here.
    obtain ⟨rfl, hmore⟩ := h.lexeme.parts hc
    have hrun := takeWhile_run hmore (h.stopsAt hc)
    rw [hcut, takeWhile_run (hname.parts hc).2 hafter] at hrun
    exact ⟨rfl, by rw [hrun]⟩
  | false =>
    obtain rfl := h.lexeme.more_eq_nil hdigit hc
    obtain rfl := hname.more_eq_nil hdigit hc
    exact ⟨h.lexeme.kind_unique hname, rfl⟩

/-- Inside a token that is no number no whole word starts. -/
theorem IsLexeme.untouched (h : IsLexeme kind word) (hkind : ∀ v, kind ≠ .number v)
    (hfirst : ¬ Stands name before (word ++ rest)) : Untouched name before word rest := by
  have hsingle {c : Char} (hword : word = [c]) : Untouched name before word rest := by
    rw [hword] at hfirst ⊢
    exact untouched_cons.mpr ⟨by simpa using hfirst, untouched_nil _ _ _⟩
  cases h with
  | number => exact absurd rfl (hkind _)
  | @word c more hc hmore =>
    rintro front d back hcut
    rcases List.eq_nil_or_concat front with rfl | ⟨front, e, rfl⟩
    · rw [← List.nil_append (d :: back), ← hcut, List.append_nil]
      exact hfirst
    · have he : isNamePart e = true := by
        have hmem : e ∈ c :: more := by rw [hcut]; simp
        rcases List.mem_cons.mp hmem with rfl | hmem
        · exact isNamePart_of_isNameStart hc
        · exact hmore e hmem
      rw [List.concat_eq_append, ← List.append_assoc]
      exact not_stands_of_part he
  | constant | operator | opening | closing | comma => exact hsingle rfl

theorem untouched_iff_covers (text : String) (htext : text.toList = word) :
    Untouched name before word rest ↔
      ∀ i, Covers ⟨kind, text, before.length⟩ i → ¬ StandsAt name (before ++ (word ++ rest)) i := by
  have hlength : text.length = word.length := by rw [← htext, String.length_toList]
  constructor
  · rintro h i ⟨hle, hlt⟩
    obtain ⟨j, rfl⟩ := Nat.exists_eq_add_of_le hle
    have hj : j < word.length := by
      simp only [hlength] at hlt
      omega
    have hcut : word = word.take j ++ word[j] :: word.drop (j + 1) := by simp
    have hfront := standsAt_front name before (word.take j) (word[j] :: word.drop (j + 1) ++ rest)
    rw [← List.append_assoc (word.take j), ← hcut, List.length_take, Nat.min_eq_left hj.le] at hfront
    rw [hfront]
    exact h _ _ _ hcut
  · rintro h front c back rfl
    have hfront := standsAt_front name before front (c :: back ++ rest)
    rw [List.append_assoc] at h
    rw [← hfront]
    refine h _ ⟨Nat.le_add_right .., ?_⟩
    simp only [hlength, List.length_append, List.length_cons]
    omega

theorem stopsAt_renamedRest {new : List Char} (hrest : StopsAt isNamePart rest)
    (h : ¬ Stands name before rest) : StopsAt isNamePart (renamedRest name new before rest) := by
  cases rest with
  | nil =>
    rw [renamedRest_nil]
    exact hrest
  | cons c rest =>
    rw [renamedRest_keep h]
    rintro d ⟨⟩
    exact hrest c rfl

/-! ### One token -/

/-- A token that is not the name stays the longest lexeme at its place. -/
theorem Munch.renamedRest (h : Munch kind word rest) (hname : name ≠ []) :
    Munch kind word (renamedRest name ['x'] (before ++ word) rest) := by
  have hword := h.lexeme
  cases hword with
  | @number n hn =>
    refine ⟨.number hn, fun kind' word' h' hahead => ?_⟩
    by_contra! hlonger
    obtain ⟨more, rfl⟩ := List.prefix_of_prefix_length_le (List.prefix_append ..) hahead hlonger.le
    obtain ⟨c, digits, hdigits⟩ := List.exists_cons_of_ne_nil hn.ne_nil
    have hc := hn.starts c (by rw [hdigits]; rfl)
    rw [hdigits, List.cons_append] at h'
    obtain ⟨m, hm, -, htext⟩ := h'.exists_numeral hc
    have hm : 'x' ∉ m.text := hm.not_mem (by decide) (by decide)
    have hx : 'x' ∉ more := fun hx => hm (by
      rw [htext]
      exact List.mem_cons_of_mem _ (List.mem_append_right _ hx))
    obtain ⟨after, rfl, -⟩ :=
      exists_of_isPrefix_renamedRest hname ((List.prefix_append_right_inj _).mp hahead) hx
    have hle := h.longest _ _ h' (by rw [hdigits]; simp)
    simp only [hdigits, List.length_cons, List.length_append] at hle hlonger
    omega
  | @word c more hc hmore =>
    refine munch_word hc hmore (stopsAt_renamedRest (h.stopsAt hc) ?_)
    rcases List.eq_nil_or_concat more with rfl | ⟨front, d, rfl⟩
    · exact not_stands_of_part (isNamePart_of_isNameStart hc)
    · have hcut : before ++ c :: (front ++ [d]) = (before ++ c :: front) ++ [d] := by simp
      rw [List.concat_eq_append, hcut]
      exact not_stands_of_part (hmore d (by simp))
  | constant hc =>
    obtain ⟨hdigit, hstart⟩ := isDigitLike_of_isSymbolConstant hc
    exact munch_single (.constant hc) hdigit hstart _
  | operator hc => exact munch_single (.operator hc) (classes_of_mark (.inl hc)).1 (classes_of_mark (.inl hc)).2.1 _
  | opening => exact munch_single .opening (by decide) (by decide) _
  | closing => exact munch_single .closing (by decide) (by decide) _
  | comma => exact munch_single .comma (by decide) (by decide) _

/-- The letters that a token has in the renamed text. -/
def renamedLetters (name : List Char) (kind : Kind) (word : List Char) : List Char :=
  if kind = .name ∧ word = name then ['x'] else word

/-- A token that is renamed as the words are is found, renamed, in the renamed text. -/
theorem Munch.renamed (hname : IsLexeme .name name) (h : Munch kind word rest)
    (hwell : RenamesWell name (before ++ (word ++ rest)) ⟨kind, String.ofList word, before.length⟩) :
    Munch kind (renamedLetters name kind word) (GraphCalc.renamedRest name ['x'] (before ++ word) rest) ∧
      GraphCalc.renamedRest name ['x'] before (word ++ rest) =
        renamedLetters name kind word ++ GraphCalc.renamedRest name ['x'] (before ++ word) rest := by
  unfold renamedLetters
  split
  · next hsame =>
    obtain ⟨rfl, rfl⟩ := hsame
    obtain ⟨hstands, hbehind⟩ := hwell.name rfl (String.toList_ofList ..)
    rw [standsAt_length] at hstands
    rw [standsAt_front] at hbehind
    exact ⟨munch_word (by decide) (by simp) (stopsAt_renamedRest hstands.stopsAt hbehind),
      renamedRest_replace hname.ne_nil hstands⟩
  · next hother =>
    refine ⟨h.renamedRest hname.ne_nil, renamedRest_untouched ?_⟩
    by_cases hkind : ∃ v, kind = .number v
    · obtain ⟨v, rfl⟩ := hkind
      exact (untouched_iff_covers _ (String.toList_ofList ..)).mpr (hwell.number v rfl)
    · exact h.lexeme.untouched (not_exists.mp hkind) fun hstands =>
        hother (h.eq_of_stands hname hstands)

/-- A token that is found, renamed, in the renamed text is renamed as the words are. -/
theorem RenamesWell.of_renamed (hname : IsLexeme .name name) (hx : name ≠ ['x'])
    (h : Munch kind word rest) {after : List Char}
    (hafter : Munch kind (renamedLetters name kind word) after)
    (hcut : GraphCalc.renamedRest name ['x'] before (word ++ rest) =
      renamedLetters name kind word ++ after) :
    RenamesWell name (before ++ (word ++ rest)) ⟨kind, String.ofList word, before.length⟩ := by
  refine ⟨fun hkind hsame => ?_, fun v hkind => ?_⟩
  · obtain rfl : kind = .name := hkind
    obtain rfl : word = name := by rwa [String.toList_ofList] at hsame
    rw [renamedLetters, if_pos ⟨rfl, rfl⟩] at hafter hcut
    rw [standsAt_length, standsAt_front]
    have hstands : Stands word before (word ++ rest) := by
      by_contra hnot
      rw [renamedRest_untouched (hname.untouched (by rintro v ⟨⟩) hnot)] at hcut
      have hle := hafter.longest _ _ hname ⟨_, hcut⟩
      obtain ⟨c, more, rfl⟩ := hname.exists_cons
      obtain rfl : more = [] := List.length_eq_zero_iff.mp (by simpa using hle)
      exact hx (by rw [(List.cons.inj hcut).1])
    refine ⟨hstands, fun hbehind => ?_⟩
    obtain ⟨-, more, rfl, -⟩ := id hbehind
    rw [renamedRest_replace hname.ne_nil hstands, renamedRest_replace hname.ne_nil hbehind] at hcut
    have hdouble : IsLexeme .name ['x', 'x'] := .word (by decide) (by simp; decide)
    have hle := hafter.longest _ _ hdouble ⟨_, hcut⟩
    simp at hle
  · obtain rfl : kind = .number v := hkind
    rw [renamedLetters, if_neg (by simp)] at hcut
    have hword : 'x' ∉ word := by
      generalize hkind : Kind.number v = kind at h
      cases h.lexeme with
      | number hn => exact hn.not_mem (by decide) (by decide)
      | _ => cases hkind
    obtain ⟨more, hrest, huntouched⟩ :=
      exists_of_isPrefix_renamedRest hname.ne_nil ⟨after, hcut.symm⟩ hword
    obtain rfl := List.append_cancel_left hrest
    exact (untouched_iff_covers _ (String.toList_ofList ..)).mp huntouched

/-- Where no token starts, none starts in the renamed text. -/
theorem Halts.renamed (hname : IsLexeme .name name) (h : Halts rest) :
    Halts (GraphCalc.renamedRest name ['x'] before rest) := by
  cases rest with
  | nil =>
    rw [renamedRest_nil]
    exact halts_nil
  | cons c tail =>
    have hstands : ¬ Stands name before (c :: tail) := by
      rintro ⟨-, after, hcut, -⟩
      exact h.lexeme _ _ hname ⟨after, hcut.symm⟩
    have hkeep : GraphCalc.renamedRest name ['x'] before (c :: tail) = _ := renamedRest_keep hstands
    refine ⟨?_, fun kind word hword hahead => ?_⟩
    · rw [hkeep]
      rintro d ⟨⟩
      exact h.blank c rfl
    · obtain ⟨d, more, rfl⟩ := hword.exists_cons
      obtain rfl : d = c := by
        rw [hkeep] at hahead
        exact (List.cons_prefix_cons.mp hahead).1
      cases hd : isNameStart d with
      | true => exact h.lexeme .name [d] (.word hd (by simp)) ⟨tail, rfl⟩
      | false =>
        obtain ⟨after, hcut, -⟩ :=
          exists_of_isPrefix_renamedRest hname.ne_nil hahead (hword.not_mem hd)
        exact h.lexeme _ _ hword ⟨after, hcut.symm⟩

end Munched

/-! ### Runs -/

section Runs
variable {name : String} {before rest : List Char} {tokens : List Token}

theorem alike_renamedLetters (name : String) (kind : Kind) (word : List Char) (p q : ℕ) :
    Alike (renamedName name "x") ⟨kind, String.ofList word, p⟩
      ⟨kind, String.ofList (renamedLetters name.toList kind word), q⟩ := by
  refine ⟨rfl, ?_⟩
  have hsame : String.ofList word = name ↔ word = name.toList := by
    rw [← String.toList_inj, String.toList_ofList]
  by_cases hkind : kind = .name
  · by_cases hword : word = name.toList
    · simp [renamedLetters, renamedName, hkind, hword]
    · simp [renamedLetters, renamedName, hkind, hword, hsame]
  · simp [renamedLetters, hkind]

/-- No name starts with a blank, so blanks stay. -/
theorem renamedRest_blank {c : Char} {new : List Char} (hname : IsName name) (hc : isBlank c = true) :
    renamedRest name.toList new before (c :: rest) =
      c :: renamedRest name.toList new (before ++ [c]) rest := by
  refine renamedRest_keep ?_
  rintro ⟨-, after, hcut, -⟩
  have hlexeme := isLexeme_of_isName hname
  obtain ⟨d, more, hmore⟩ := hlexeme.exists_cons
  rw [hmore] at hlexeme hcut
  rw [(List.cons.inj hcut).1, hlexeme.isBlank_eq_false] at hc
  cases hc

/-- A run through tokens that are renamed as the words are is a run through the renamed text, and
finds the renamed tokens. -/
theorem Scans.renamed (hname : IsName name) (h : Scans before tokens rest)
    (hwell : ∀ t ∈ tokens, RenamesWell name.toList (before ++ rest) t) :
    ∃ before' tokens', Scans before' tokens' (renamedRest name.toList ['x'] before rest) ∧
      List.Forall₂ (Alike (renamedName name "x")) tokens tokens' ∧
      before' ++ renamedRest name.toList ['x'] before rest =
        renamedRest name.toList ['x'] [] (before ++ rest) := by
  induction h with
  | nil => exact ⟨[], [], .nil, .nil, rfl⟩
  | @blank before tokens c rest _ hc ih =>
    obtain ⟨before', tokens', hrun, halike, hwhole⟩ := ih (by simpa using hwell)
    rw [renamedRest_blank hname hc] at hrun hwhole
    exact ⟨_, tokens', hrun.blank hc, halike, by simpa using hwhole⟩
  | @token before tokens kind word rest _ hword ih =>
    rw [List.append_assoc] at hwell ⊢
    obtain ⟨before', tokens', hrun, halike, hwhole⟩ :=
      ih fun t ht => hwell t (List.mem_append_left _ ht)
    obtain ⟨hmunch, hcut⟩ := hword.renamed (isLexeme_of_isName hname)
      (hwell _ (List.mem_append_right _ (List.mem_singleton_self _)))
    rw [hcut] at hrun hwhole
    refine ⟨_, _, hrun.token hmunch, List.rel_append halike (.cons ?_ .nil), by simpa using hwhole⟩
    exact alike_renamedLetters ..

/-- What is scanned first in a text that does not start with a blank is its longest lexeme. -/
theorem exists_munch_of_scanFrom {position : ℕ} {text : List Char} {t : Token} {more : List Token}
    (hblank : ∀ c ∈ text.head?, isBlank c = false) (h : scanFrom position text = .ok (t :: more)) :
    ∃ word after, text = word ++ after ∧ Munch t.kind word after ∧ t.text = String.ofList word := by
  cases text with
  | nil => rw [scanFrom] at h; cases h
  | cons c tail =>
    have hc : isBlank c = false := hblank c rfl
    cases hstart : start position c tail with
    | error e =>
      rw [scanFrom, if_neg (by simp [hc]), hstart] at h
      cases h
    | ok found =>
      obtain ⟨word, after, rfl, -, hmunch⟩ := munch_of_start hstart
      rw [scanFrom_token hc (hmunch.start_eq position), List.drop_left, List.take_left] at h
      cases hrest : scanFrom (position + 1 + word.length) after with
      | error e => rw [hrest] at h; cases h
      | ok us =>
        rw [hrest] at h
        cases h
        exact ⟨c :: word, after, rfl, hmunch, rfl⟩

/-- Where a token starts, the renamed text does not start with a blank. -/
theorem Munch.head_renamedRest {kind : Kind} {word : List Char} (hname : IsName name)
    (hword : Munch kind word rest) (before : List Char) :
    ∀ c ∈ (GraphCalc.renamedRest name.toList ['x'] before (word ++ rest)).head?, isBlank c = false := by
  obtain ⟨c, letters, rfl⟩ := hword.lexeme.exists_cons
  by_cases hstands : Stands name.toList before (c :: letters ++ rest)
  · obtain ⟨-, after, hcut, -⟩ := id hstands
    rw [hcut] at hstands ⊢
    rw [renamedRest_replace (isLexeme_of_isName hname).ne_nil hstands]
    rintro d ⟨⟩
    decide
  · rw [List.cons_append] at hstands ⊢
    rw [renamedRest_keep hstands]
    rintro d ⟨⟩
    exact hword.lexeme.isBlank_eq_false

/-- If the renamed text has the renamed tokens, they are renamed as the words are. -/
theorem Scans.renamesWell (hname : IsName name) (hx : name.toList ≠ ['x'])
    (h : Scans before tokens rest) {more found : List Token}
    (hfound : scanFrom 0 (renamedRest name.toList ['x'] [] (before ++ rest)) = .ok found)
    (halike : List.Forall₂ (Alike (renamedName name "x")) (tokens ++ more) found) :
    ∀ t ∈ tokens, RenamesWell name.toList (before ++ rest) t := by
  induction h generalizing more with
  | nil => simp
  | @blank before tokens c rest _ hc ih =>
    rw [List.append_assoc] at hfound ⊢
    exact ih hfound halike
  | @token before tokens kind word rest hrun hword ih =>
    rw [List.append_assoc] at hfound halike ⊢
    have hbefore := ih hfound halike
    intro t ht
    rcases List.mem_append.mp ht with ht | ht
    · exact hbefore t ht
    rw [List.mem_singleton.mp ht]
    -- The renamed text is scanned alike up to this token.
    obtain ⟨before', tokens', hrun', halike', hwhole⟩ := hrun.renamed hname hbefore
    have hscan := hrun'.scanFrom_eq
    rw [hwhole, hfound] at hscan
    cases hrest : scanFrom before'.length (renamedRest name.toList ['x'] before (word ++ rest)) with
    | error e => rw [hrest] at hscan; cases hscan
    | ok us =>
      rw [hrest] at hscan
      obtain rfl : found = tokens' ++ us := Except.ok.inj hscan
      have hdrop := List.forall₂_drop tokens.length halike
      rw [List.drop_left, halike'.length_eq, List.drop_left] at hdrop
      obtain ⟨u, us', hu, -, rfl⟩ := List.forall₂_cons_left_iff.mp hdrop
      obtain ⟨word', after, hcut, hmunch, htext⟩ := exists_munch_of_scanFrom (hword.head_renamedRest hname before) hrest
      have hsame := (alike_renamedLetters name kind word before.length 0).text
      rw [← hu.text, htext, String.ofList_inj] at hsame
      rw [hu.kind, ← hsame] at hmunch
      rw [← hsame] at hcut
      exact .of_renamed (isLexeme_of_isName hname) hx hword hmunch hcut

end Runs

/-! ## Every text with tokens -/

/-- The renamed text has the tokens of the text, with the name renamed, exactly if each token is
renamed as the words of the text are. -/
theorem scan_renameWord_iff {name : String} {text : List Char} {stream : Stream}
    (hname : IsName name) (h : scan text = .ok stream) :
    (∃ stream', scan (renameWord name.toList "x".toList text) = .ok stream' ∧
      List.Forall₂ (Alike (renamedName name "x")) stream.tokens stream'.tokens) ↔
    name = "x" ∨ ∀ t ∈ stream.tokens, RenamesWell name.toList text t := by
  obtain ⟨hrun, -⟩ := scans_of_scan h
  by_cases hx : name = "x"
  · subst hx
    refine iff_of_true ⟨stream, by rwa [renameWord, if_pos rfl], ?_⟩ (.inl rfl)
    refine List.forall₂_same.mpr fun t _ => ⟨rfl, ?_⟩
    by_cases hname : t.text = "x" <;> simp [renamedName, hname]
  have hx' : name.toList ≠ ['x'] := fun hsame => hx (String.toList_inj.mp hsame)
  have hrename : renameWord name.toList "x".toList text = renamedRest name.toList ['x'] [] text :=
    if_neg hx'
  rw [hrename, or_iff_right hx]
  constructor
  · rintro ⟨stream', h', halike⟩
    have hfound := (scans_of_scan h').1.scanFrom_eq
    rw [List.append_nil (renamedRest ..), scanFrom, Except.map, List.append_nil] at hfound
    rw [← List.append_nil text] at hfound ⊢
    rw [← List.append_nil stream.tokens] at halike
    exact hrun.renamesWell hname hx' hfound halike
  · intro hall
    rw [← List.append_nil text] at hall
    obtain ⟨before', tokens', hrun', halike, hwhole⟩ := hrun.renamed hname hall
    rw [renamedRest_nil, List.append_nil, List.append_nil] at hwhole
    rw [renamedRest_nil] at hrun'
    rw [← hwhole]
    exact ⟨_, hrun'.scan_eq_ok, halike⟩

/-! ### A number in front of the name -/

theorem munch_numeral {n : Numeral} {rest : List Char} (hn : n.Valid)
    (hrest : StopsAt Numeral.continues rest) : Munch (.number n.value) n.text rest :=
  munch_number (Numeral.longest?_text hrest hn)

def two : Numeral := ⟨['2'], none, none⟩

theorem valid_two : two.Valid :=
  ⟨by simp [two]; decide, by simp [two, Numeral.fractionDigits], .inl (by simp [two]), by simp [two]⟩

theorem isName_t : IsName "t" := ⟨'t', [], rfl, .inl ⟨by decide, by simp⟩⟩

theorem munch_t : Munch .name ['t'] [] := munch_word (by decide) (by simp) (by rintro c ⟨⟩)

theorem scan_two_t : scan "2 t".toList = .ok ⟨[⟨.number two.value, "2", 0⟩, ⟨.name, "t", 2⟩], 3⟩ := by
  have htwo : Munch (.number two.value) ['2'] [' ', 't'] :=
    munch_numeral valid_two (by rintro c ⟨⟩; decide)
  have hrun : Scans [] [] (['2'] ++ [' ', 't']) := .nil
  exact (((hrun.token htwo).blank (by decide)).token munch_t).scan_eq_ok

/-- A name behind a blank is renamed. -/
theorem spaced_product_is_renamed :
    ∃ stream stream', scan "2 t".toList = .ok stream ∧
      scan (renameWord "t".toList "x".toList "2 t".toList) = .ok stream' ∧
      List.Forall₂ (Alike (renamedName "t" "x")) stream.tokens stream'.tokens := by
  have hnumber : RenamesWell "t".toList "2 t".toList ⟨.number two.value, "2", 0⟩ := by
    refine ⟨by rintro ⟨⟩, fun v _ i => ?_⟩
    rintro ⟨-, hi⟩ ⟨-, after, hcut, -⟩
    change i < 0 + 1 at hi
    obtain rfl : i = 0 := by omega
    cases hcut
  have hname : RenamesWell "t".toList "2 t".toList ⟨.name, "t", 2⟩ := by
    refine ⟨fun _ _ => ⟨⟨?_, [], rfl, by rintro c ⟨⟩⟩, ?_⟩, by rintro v ⟨⟩⟩
    · rintro c ⟨⟩
      decide
    · rintro ⟨-, after, hcut, -⟩
      cases hcut
  have hall : ∀ t ∈ [(⟨.number two.value, "2", 0⟩ : Token), ⟨.name, "t", 2⟩],
      RenamesWell "t".toList "2 t".toList t := by
    simpa using ⟨hnumber, hname⟩
  obtain ⟨stream', h⟩ := (scan_renameWord_iff isName_t scan_two_t).mpr (.inr hall)
  exact ⟨_, stream', scan_two_t, h⟩

theorem scan_twice_t : scan "2t".toList = .ok ⟨[⟨.number two.value, "2", 0⟩, ⟨.name, "t", 1⟩], 2⟩ := by
  have htwo : Munch (.number two.value) ['2'] ['t'] :=
    munch_numeral valid_two (by rintro c ⟨⟩; decide)
  have hrun : Scans [] [] (['2'] ++ ['t']) := .nil
  exact ((hrun.token htwo).token munch_t).scan_eq_ok

/-- A name that stands right behind a digit is not renamed. -/
theorem name_behind_digit_is_not_renamed :
    ∃ stream, IsName "t" ∧ scan "2t".toList = .ok stream ∧
      ¬ ∃ stream', scan (renameWord "t".toList "x".toList "2t".toList) = .ok stream' ∧
        List.Forall₂ (Alike (renamedName "t" "x")) stream.tokens stream'.tokens := by
  refine ⟨_, isName_t, scan_twice_t, ?_⟩
  rintro ⟨stream', hscan, halike⟩
  have hsame : renameWord "t".toList "x".toList "2t".toList = "2t".toList := by decide
  rw [hsame, scan_twice_t] at hscan
  cases hscan
  obtain - | ⟨-, - | ⟨ht, -⟩⟩ := halike
  exact absurd ht.text (by decide)

end Token
end GraphCalc
