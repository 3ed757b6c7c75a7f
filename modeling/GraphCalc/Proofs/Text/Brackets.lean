import GraphCalc.Proofs.Text.Cutting

/-! # Brackets and commas in a text

How deep a place of a text is in brackets, said of the characters before it. Main notions:

* `level`: the brackets that a text opens less those it closes;
* `Balanced`: every bracket of the text has its partner in the text;
* `outerCommas`: the positions of the commas outside all brackets;
* `IsPiece`: a balanced text without such a comma.
-/

namespace GraphCalc.Text
set_option autoImplicit false

/-! ## Levels -/

/-- The brackets that a text opens, less those that it closes. -/
def level (text : List Char) : Int := text.count '(' - text.count ')'

@[simp] theorem level_nil : level [] = 0 := rfl

@[simp] theorem level_append (before after : List Char) :
    level (before ++ after) = level before + level after := by
  simp only [level, List.count_append]
  omega

theorem level_cons (c : Char) (text : List Char) : level (c :: text) = level [c] + level text :=
  level_append [c] text

@[simp] theorem level_opening (text : List Char) : level ('(' :: text) = level text + 1 := by
  rw [level_cons, Int.add_comm]
  rfl

@[simp] theorem level_closing (text : List Char) : level (')' :: text) = level text - 1 := by
  rw [level_cons, Int.add_comm]
  rfl

theorem level_eq_zero {text : List Char} (ho : '(' ∉ text) (hc : ')' ∉ text) : level text = 0 := by
  simp [level, List.count_eq_zero.mpr ho, List.count_eq_zero.mpr hc]

theorem level_singleton_of_ne {c : Char} (ho : c ≠ '(') (hc : c ≠ ')') : level [c] = 0 :=
  level_eq_zero (by simpa using ho.symm) (by simpa using hc.symm)

/-! ## Balance -/

/-- The text closes `depth` brackets that were open before it and all that it opens, and no more. -/
def ClosesAll (depth : Nat) (text : List Char) : Prop :=
  depth + level text = 0 ∧ ∀ before, before <+: text → 0 ≤ depth + level before

/-- Every bracket of the text has its partner in the text. -/
def Balanced (text : List Char) : Prop :=
  level text = 0 ∧ ∀ before, before <+: text → 0 ≤ level before

theorem closesAll_zero_iff {text : List Char} : ClosesAll 0 text ↔ Balanced text := by
  simp [ClosesAll, Balanced]

theorem closesAll_nil_iff {depth : Nat} : ClosesAll depth [] ↔ depth = 0 := by
  simp only [ClosesAll, level_nil, List.prefix_nil]
  constructor
  · rintro ⟨h, -⟩
    omega
  · rintro rfl
    exact ⟨rfl, fun before h => by simp [h]⟩

theorem closesAll_cons_iff {depth depth' : Nat} {c : Char} {text : List Char}
    (h : (depth : Int) + level [c] = depth') : ClosesAll depth (c :: text) ↔ ClosesAll depth' text := by
  have hlevel : ∀ text, (depth : Int) + level (c :: text) = depth' + level text := fun text => by
    rw [level_cons, ← h, Int.add_assoc]
  constructor
  · rintro ⟨htotal, hbefore⟩
    refine ⟨by rw [← hlevel, htotal], fun before hpre => ?_⟩
    rw [← hlevel]
    exact hbefore _ (List.cons_prefix_cons.mpr ⟨rfl, hpre⟩)
  · rintro ⟨htotal, hbefore⟩
    refine ⟨by rw [hlevel, htotal], fun before hpre => ?_⟩
    cases before with
    | nil => simp
    | cons b before =>
      obtain ⟨rfl, htail⟩ := List.cons_prefix_cons.mp hpre
      rw [hlevel]
      exact hbefore before htail

theorem not_closesAll_zero_closing {text : List Char} : ¬ ClosesAll 0 (')' :: text) := by
  rintro ⟨-, hbefore⟩
  have h := hbefore [')'] (List.cons_prefix_cons.mpr ⟨rfl, List.nil_prefix⟩)
  simp at h

section Balance
variable {before text after : List Char}

theorem balanced_of_no_brackets (ho : '(' ∉ text) (hc : ')' ∉ text) : Balanced text :=
  ⟨level_eq_zero ho hc, fun _ h =>
    (level_eq_zero (fun hmem => ho (h.subset hmem)) fun hmem => hc (h.subset hmem)).ge⟩

theorem Balanced.append (h : Balanced before) (h' : Balanced after) : Balanced (before ++ after) := by
  refine ⟨by rw [level_append, h.1, h'.1, Int.add_zero], fun start hstart => ?_⟩
  rcases List.prefix_or_prefix_of_prefix hstart (List.prefix_append before after) with
    hstart | ⟨middle, rfl⟩
  · exact h.2 start hstart
  · rw [level_append, h.1, Int.zero_add]
    exact h'.2 middle ((List.prefix_append_right_inj before).mp hstart)

theorem Balanced.left (h : Balanced (before ++ after)) (hlevel : level before = 0) :
    Balanced before :=
  ⟨hlevel, fun start hstart => h.2 start (hstart.trans (List.prefix_append _ _))⟩

theorem Balanced.right (h : Balanced (before ++ after)) (hlevel : level before = 0) :
    Balanced after := by
  constructor
  · have htotal := h.1
    rwa [level_append, hlevel, Int.zero_add] at htotal
  · intro start hstart
    have hbefore := h.2 (before ++ start) ((List.prefix_append_right_inj before).mpr hstart)
    rwa [level_append, hlevel, Int.zero_add] at hbefore

theorem balanced_cons_iff {c : Char} (ho : c ≠ '(') (hc : c ≠ ')') :
    Balanced (c :: text) ↔ Balanced text := by
  have h : ((0 : Nat) : Int) + level [c] = (0 : Nat) := by rw [level_singleton_of_ne ho hc]; rfl
  rw [← closesAll_zero_iff, closesAll_cons_iff h, closesAll_zero_iff]

theorem Balanced.bracketed (h : Balanced text) : Balanced ('(' :: (text ++ [')'])) := by
  refine ⟨by simp [h.1], fun start hstart => ?_⟩
  cases start with
  | nil => simp
  | cons c start =>
    obtain ⟨rfl, htail⟩ := List.cons_prefix_cons.mp hstart
    rcases List.prefix_concat_iff.mp htail with rfl | hinside
    · simp [h.1]
    · have hlevel := h.2 start hinside
      rw [level_opening]
      omega

end Balance

theorem level_of_blank {blanks : List Char} (h : ∀ c ∈ blanks, isBlank c = true) : level blanks = 0 :=
  level_eq_zero (fun hmem => absurd (h _ hmem) (by decide)) fun hmem => absurd (h _ hmem) (by decide)

theorem Balanced.trim {text : List Char} (h : Balanced text) : Balanced (trim text) := by
  obtain ⟨start, finish, htext, hstart, hfinish⟩ := exists_trim text
  rw [htext, List.append_assoc] at h
  have hright := h.right (level_of_blank hstart)
  have hlevel := hright.1
  rw [level_append, level_of_blank hfinish, Int.add_zero] at hlevel
  exact hright.left hlevel

/-! ## Commas outside all brackets -/

/-- The positions of the commas outside all brackets, if `depth` brackets are open before the text. -/
def commasAt (depth : Int) (text : List Char) : List Nat :=
  (List.range text.length).filter fun i => text[i]? == some ',' && depth + level (text.take i) == 0

/-- The positions of the commas outside all brackets. -/
def outerCommas (text : List Char) : List Nat := commasAt 0 text

theorem mem_commasAt {depth : Int} {text : List Char} {i : Nat} :
    i ∈ commasAt depth text ↔ text[i]? = some ',' ∧ depth + level (text.take i) = 0 := by
  simp only [commasAt, List.mem_filter, List.mem_range, Bool.and_eq_true, beq_iff_eq,
    and_iff_right_iff_imp]
  exact fun h => (List.getElem?_eq_some_iff.mp h.1).1

@[simp] theorem commasAt_nil (depth : Int) : commasAt depth [] = [] := rfl

theorem commasAt_cons (depth : Int) (c : Char) (text : List Char) :
    commasAt depth (c :: text) =
      (if c = ',' ∧ depth = 0 then [0] else []) ++
        (commasAt (depth + level [c]) text).map (· + 1) := by
  have htail : ∀ i, ((c :: text)[i + 1]? == some ',' && depth + level ((c :: text).take (i + 1)) == 0) =
      (text[i]? == some ',' && depth + level [c] + level (text.take i) == 0) := fun i => by
    rw [List.getElem?_cons_succ, List.take_succ_cons, level_cons, Int.add_assoc]
  rw [commasAt, List.length_cons, List.range_succ_eq_map, List.filter_cons, List.filter_map]
  simp only [Function.comp_def, htail, Nat.succ_eq_add_one]
  by_cases h : c = ',' ∧ depth = 0
  · simp [h, commasAt]
  · simp [h, commasAt]

section Commas
variable {depth : Int} {before after text : List Char}

theorem commasAt_append (depth : Int) (before after : List Char) :
    commasAt depth (before ++ after) =
      commasAt depth before ++ (commasAt (depth + level before) after).map (· + before.length) := by
  induction before generalizing depth with
  | nil => simp
  | cons c before ih =>
    rw [List.cons_append, commasAt_cons, ih, commasAt_cons, List.map_append, List.map_map,
      level_cons c before, Int.add_assoc, List.append_assoc]
    simp [Function.comp_def, Nat.add_assoc]

/-- Behind a comma outside all brackets the counting starts anew. -/
theorem commasAt_cut (hbefore : commasAt depth before = []) (hlevel : depth + level before = 0)
    (after : List Char) : commasAt depth (before ++ ',' :: after) =
      before.length :: (outerCommas after).map (· + (before.length + 1)) := by
  rw [commasAt_append, hbefore, hlevel, commasAt_cons, List.map_append, List.map_map]
  simp [Function.comp_def, Nat.add_assoc, Nat.add_comm 1, outerCommas]
  rfl

/-- A text has a first comma outside all brackets, if it has one. -/
theorem exists_first_comma (depth : Int) (text : List Char) : commasAt depth text = [] ∨
    ∃ before after, text = before ++ ',' :: after ∧ depth + level before = 0 ∧
      commasAt depth before = [] := by
  induction text generalizing depth with
  | nil => exact .inl rfl
  | cons c text ih =>
    by_cases hc : c = ',' ∧ depth = 0
    · exact .inr ⟨[], text, by rw [hc.1, List.nil_append], by simp [hc.2], rfl⟩
    · rcases ih (depth + level [c]) with hnone | ⟨before, after, rfl, hlevel, hbefore⟩
      · exact .inl (by rw [commasAt_cons, if_neg hc, hnone]; rfl)
      · refine .inr ⟨c :: before, after, rfl, by rw [level_cons]; omega, ?_⟩
        rw [commasAt_cons, if_neg hc, hbefore]
        rfl

theorem outerCommas_append (hlevel : level before = 0) (after : List Char) :
    outerCommas (before ++ after) =
      outerCommas before ++ (outerCommas after).map (· + before.length) := by
  rw [outerCommas, commasAt_append, hlevel]
  rfl

theorem outerCommas_of_not_mem (h : ',' ∉ text) : outerCommas text = [] := by
  refine List.eq_nil_iff_forall_not_mem.mpr fun i hi => h ?_
  exact List.mem_of_getElem? (mem_commasAt.mp hi).1

/-- Between brackets that match, no comma is outside all brackets. -/
theorem Balanced.outerCommas_bracketed (h : Balanced text) :
    outerCommas ('(' :: (text ++ [')'])) = [] := by
  have hinside : commasAt 1 text = [] := by
    refine List.eq_nil_iff_forall_not_mem.mpr fun i hi => ?_
    have hlevel := h.2 _ (List.take_prefix i text)
    have hzero := (mem_commasAt.mp hi).2
    omega
  rw [outerCommas, commasAt_cons, if_neg (by decide), commasAt_append]
  simp [hinside, commasAt_cons]

theorem outerCommas_trim (h : outerCommas text = []) : outerCommas (trim text) = [] := by
  obtain ⟨start, finish, htext, hstart, -⟩ := exists_trim text
  rw [htext, List.append_assoc, outerCommas_append (level_of_blank hstart), List.append_eq_nil_iff,
    List.map_eq_nil_iff] at h
  have hrest : commasAt 0 (trim text ++ finish) = [] := h.2
  rw [commasAt_append, List.append_eq_nil_iff] at hrest
  exact hrest.1

end Commas

/-! ## Pieces -/

/-- A text that may stand between two commas: it is balanced, and no comma cuts it. -/
structure IsPiece (text : List Char) : Prop where
  balanced : Balanced text
  uncut : outerCommas text = []

theorem IsPiece.trim {text : List Char} (h : IsPiece text) : IsPiece (trim text) :=
  ⟨h.balanced.trim, outerCommas_trim h.uncut⟩

theorem isPiece_of_not_mem {text : List Char} (h : ∀ c ∈ ['(', ')', ','], c ∉ text) : IsPiece text :=
  ⟨balanced_of_no_brackets (h _ (by simp)) (h _ (by simp)), outerCommas_of_not_mem (h _ (by simp))⟩

theorem IsPiece.append {before after : List Char} (h : IsPiece before) (h' : IsPiece after) :
    IsPiece (before ++ after) := by
  refine ⟨h.balanced.append h'.balanced, ?_⟩
  rw [outerCommas_append h.balanced.1, h.uncut, h'.uncut]
  rfl

theorem Balanced.isPiece_bracketed {text : List Char} (h : Balanced text) :
    IsPiece ('(' :: (text ++ [')'])) :=
  ⟨h.bracketed, h.outerCommas_bracketed⟩

/-- A balanced text is cut at its first comma outside all brackets, if it has one. -/
theorem Balanced.exists_first_piece {text : List Char} (h : Balanced text) : IsPiece text ∨
    ∃ piece after, text = piece ++ ',' :: after ∧ IsPiece piece ∧ Balanced after := by
  rcases exists_first_comma 0 text with huncut | ⟨piece, after, rfl, hlevel, huncut⟩
  · exact .inl ⟨h, huncut⟩
  · rw [Int.zero_add] at hlevel
    refine .inr ⟨piece, after, rfl, ⟨h.left hlevel, huncut⟩, ?_⟩
    exact (balanced_cons_iff (by decide) (by decide)).mp (h.right hlevel)

theorem IsPiece.outerCommas_cut {piece : List Char} (h : IsPiece piece) (after : List Char) :
    outerCommas (piece ++ ',' :: after) =
      piece.length :: (outerCommas after).map (· + (piece.length + 1)) :=
  commasAt_cut h.uncut ((Int.zero_add _).trans h.balanced.1) after

end GraphCalc.Text
