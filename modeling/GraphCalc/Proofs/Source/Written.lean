import GraphCalc.Proofs.Grammar.LookAhead
import GraphCalc.Proofs.Text.Cutting

/-! # Texts with their tokens

Which part of a text belongs to which of its tokens. A run of the scanner grows at its end; here a text
is taken apart along a list of its tokens instead, so that each part of a derivation has its own
stretch of the text. Main notions and statements:

* `Written p tokens text rest`: the text stands at the position `p`, in front of `rest`, and these are
  its tokens;
* `Written.split`, `Written.cut`: a text taken apart where its list of tokens is;
* `Written.exists_scan`: a text is scanned to the same tokens alone, wherever it stood;
* `Written.read_trim`: a stretch of a text is read as the tree that its tokens derive.
-/

namespace GraphCalc.Token
open GraphCalc.Text
set_option autoImplicit false

/-- The text at the position `p`, in front of `rest`, has these tokens. -/
inductive Written : ℕ → List Token → List Char → List Char → Prop where
  | nil {p rest} : Written p [] [] rest
  | blank {p tokens c text rest} (hc : isBlank c = true) (h : Written (p + 1) tokens text rest) :
      Written p tokens (c :: text) rest
  | token {p tokens kind word text rest} (hword : Munch kind word (text ++ rest))
      (h : Written (p + word.length) tokens text rest) :
      Written p (⟨kind, String.ofList word, p⟩ :: tokens) (word ++ text) rest

section Parts
variable {p : ℕ} {t : Token} {ts us : List Token} {gap text before after rest : List Char}

/-! ## Blanks -/

theorem written_blank (hgap : ∀ c ∈ gap, isBlank c = true) : Written p [] gap rest := by
  induction gap generalizing p with
  | nil => exact .nil
  | cons c gap ih =>
    obtain ⟨hc, hgap⟩ := List.forall_mem_cons.mp hgap
    exact .blank hc (ih hgap)

theorem Written.isBlank (h : Written p [] text rest) : ∀ c ∈ text, isBlank c = true := by
  generalize htokens : ([] : List Token) = tokens at h
  induction h with
  | nil => simp
  | blank hc _ ih => exact List.forall_mem_cons.mpr ⟨hc, ih htokens⟩
  | token => cases htokens

theorem Written.eq_nil (h : Written p ts gap rest) (hgap : ∀ c ∈ gap, Text.isBlank c = true) :
    ts = [] := by
  induction h with
  | nil => rfl
  | blank _ _ ih => exact ih (List.forall_mem_cons.mp hgap).2
  | token hword _ _ =>
    obtain ⟨c, more, rfl⟩ := hword.lexeme.exists_cons
    have hc := hgap c (by simp)
    rw [hword.lexeme.isBlank_eq_false] at hc
    cases hc

/-- Blanks at the start belong to no token. -/
theorem Written.drop_start (h : Written p ts (gap ++ text) rest)
    (hgap : ∀ c ∈ gap, Text.isBlank c = true) : Written (p + gap.length) ts text rest := by
  induction gap generalizing p with
  | nil => exact h
  | cons c gap ih =>
    obtain ⟨hc, hgap⟩ := List.forall_mem_cons.mp hgap
    generalize hwhole : c :: gap ++ text = whole at h
    cases h with
    | nil => cases hwhole
    | blank _ h =>
      obtain ⟨rfl, rfl⟩ := List.cons.inj hwhole
      have hrest := ih h hgap
      rwa [Nat.add_assoc, Nat.add_comm 1] at hrest
    | token hword h =>
      obtain ⟨d, more, rfl⟩ := hword.lexeme.exists_cons
      obtain ⟨rfl, -⟩ := List.cons.inj hwhole
      rw [hword.lexeme.isBlank_eq_false] at hc
      cases hc

/-- Blanks at the end belong to no token. -/
theorem Written.drop_end (h : Written p ts (text ++ gap) rest)
    (hgap : ∀ c ∈ gap, Text.isBlank c = true) : Written p ts text (gap ++ rest) := by
  generalize hwhole : text ++ gap = whole at h
  induction h generalizing text with
  | nil =>
    obtain ⟨rfl, rfl⟩ := List.append_eq_nil_iff.mp hwhole
    exact .nil
  | @blank p tokens c tail rest hc h ih =>
    cases text with
    | nil =>
      rw [List.nil_append] at hwhole
      subst hwhole
      rw [h.eq_nil (List.forall_mem_cons.mp hgap).2]
      exact .nil
    | cons d text =>
      obtain ⟨rfl, rfl⟩ := List.cons.inj hwhole
      exact .blank hc (ih rfl)
  | @token p tokens kind word tail rest hword h ih =>
    rcases List.append_eq_append_iff.mp hwhole with ⟨tip, rfl, rfl⟩ | ⟨middle, rfl, rfl⟩
    · cases tip with
      | nil =>
        have hlast : Written p (⟨kind, _, p⟩ :: tokens) (_ ++ []) ([] ++ tail ++ rest) :=
          .token hword (ih rfl)
        simpa using hlast
      | cons c tip =>
        have hc := hword.lexeme.not_blank (c := c) (by simp)
        rw [hgap c (by simp)] at hc
        cases hc
    · exact .token (by rwa [← List.append_assoc]) (ih rfl)

/-! ## Texts put together -/

theorem Written.append (h : Written p ts before (after ++ rest))
    (h' : Written (p + before.length) us after rest) : Written p (ts ++ us) (before ++ after) rest := by
  generalize hrest : after ++ rest = behind at h
  induction h with
  | nil => exact h'
  | @blank p _ c text _ hc _ ih =>
    have hplace : p + (c :: text).length = p + 1 + text.length := by rw [List.length_cons]; omega
    rw [hplace] at h'
    exact .blank hc (ih h' hrest)
  | @token p _ _ word text _ hword _ ih =>
    have hplace : p + (word ++ text).length = p + word.length + text.length := by
      rw [List.length_append]; omega
    rw [hplace] at h'
    rw [List.append_assoc]
    subst hrest
    exact .token (by rwa [List.append_assoc]) (ih h' rfl)

theorem Scans.written (h : Scans before ts rest) : Written 0 ts before rest := by
  induction h with
  | nil => exact .nil
  | blank _ hc ih =>
    have hlast : Written 0 (_ ++ []) (_ ++ [_]) _ := ih.append (.blank hc .nil)
    rwa [List.append_nil] at hlast
  | @token before _ kind word rest _ hword ih =>
    refine ih.append ?_
    have hlast : Written before.length [⟨kind, String.ofList word, before.length⟩] (word ++ []) rest :=
      .token hword .nil
    rw [Nat.zero_add]
    rwa [List.append_nil] at hlast

/-! ## Texts taken apart -/

theorem Written.split (h : Written p (ts ++ us) text rest) :
    ∃ before after, text = before ++ after ∧ Written p ts before (after ++ rest) ∧
      Written (p + before.length) us after rest := by
  generalize htokens : ts ++ us = tokens at h
  induction h generalizing ts with
  | nil =>
    obtain ⟨rfl, rfl⟩ := List.append_eq_nil_iff.mp htokens
    exact ⟨[], [], rfl, .nil, .nil⟩
  | @blank p tokens c text rest hc h ih =>
    obtain ⟨before, after, rfl, hbefore, hafter⟩ := ih htokens
    refine ⟨c :: before, after, rfl, .blank hc hbefore, ?_⟩
    rwa [List.length_cons, Nat.add_comm before.length, ← Nat.add_assoc]
  | @token p tokens kind word text rest hword h ih =>
    cases ts with
    | nil =>
      rw [List.nil_append] at htokens
      exact ⟨[], word ++ text, rfl, .nil, htokens ▸ .token hword h⟩
    | cons t ts =>
      obtain ⟨rfl, htail⟩ := List.cons.inj htokens
      obtain ⟨before, after, rfl, hbefore, hafter⟩ := ih htail
      refine ⟨word ++ before, after, (List.append_assoc ..).symm, .token ?_ hbefore, ?_⟩
      · rwa [List.append_assoc] at hword
      · rwa [List.length_append, ← Nat.add_assoc]

theorem Written.first (h : Written p (t :: ts) text rest) :
    ∃ gap after, (∀ c ∈ gap, Text.isBlank c = true) ∧ text = gap ++ (t.text.toList ++ after) ∧
      t.position = p + gap.length ∧ Munch t.kind t.text.toList (after ++ rest) ∧
      Written (t.position + t.text.length) ts after rest := by
  generalize htokens : t :: ts = tokens at h
  induction h with
  | nil => cases htokens
  | @blank p tokens c text rest hc h ih =>
    obtain ⟨gap, after, hgap, rfl, hplace, hrest⟩ := ih htokens
    refine ⟨c :: gap, after, List.forall_mem_cons.mpr ⟨hc, hgap⟩, rfl, ?_, hrest⟩
    rw [hplace, List.length_cons]
    omega
  | @token p tokens kind word text rest hword h ih =>
    obtain ⟨rfl, rfl⟩ := List.cons.inj htokens
    refine ⟨[], text, by simp, ?_, rfl, ?_, ?_⟩
    · rw [String.toList_ofList, List.nil_append]
    · rwa [String.toList_ofList]
    · rwa [String.length_ofList]

/-- A text is cut at one of its tokens. Blanks in front of it go to what stands before. -/
theorem Written.cut (h : Written p (ts ++ t :: us) text rest) :
    ∃ before after, text = before ++ (t.text.toList ++ after) ∧
      Written p ts before (t.text.toList ++ (after ++ rest)) ∧ t.position = p + before.length ∧
      Munch t.kind t.text.toList (after ++ rest) ∧
      Written (t.position + t.text.length) us after rest := by
  obtain ⟨start, behind, rfl, hstart, hbehind⟩ := h.split
  obtain ⟨gap, after, hgap, rfl, hplace, hword, hafter⟩ := hbehind.first
  rw [List.append_assoc, List.append_assoc] at hstart
  have hbefore := hstart.append (written_blank hgap)
  rw [List.append_nil] at hbefore
  refine ⟨start ++ gap, after, (List.append_assoc ..).symm, hbefore, ?_, hword, hafter⟩
  rw [hplace, List.length_append, Nat.add_assoc]

/-! ## Reading a stretch -/

/-- A text is scanned to its tokens alone, up to their places. -/
theorem Written.exists_scan (h : Written p ts text rest) (q : ℕ) :
    ∃ us, scanFrom q text = .ok us ∧ List.Forall₂ (Alike id) ts us := by
  induction h generalizing q with
  | nil => exact ⟨[], by rw [scanFrom], .nil⟩
  | blank hc _ ih =>
    obtain ⟨us, hscan, halike⟩ := ih (q + 1)
    exact ⟨us, (scanFrom_blank hc).trans hscan, halike⟩
  | @token p tokens kind word text rest hword h ih =>
    obtain ⟨c, more, rfl⟩ := hword.lexeme.exists_cons
    obtain ⟨us, hscan, halike⟩ := ih (q + 1 + more.length)
    have halone := hword.of_isPrefix (List.prefix_append text rest)
    refine ⟨⟨kind, String.ofList (c :: more), q⟩ :: us, ?_, .cons ⟨rfl, by simp⟩ halike⟩
    rw [List.cons_append, scanFrom_token hword.lexeme.isBlank_eq_false (halone.start_eq q),
      List.drop_left, List.take_left, hscan]
    rfl

theorem Written.trim (h : Written p ts text rest) : ∃ q behind, Written q ts (trim text) behind := by
  obtain ⟨start, finish, htext, hstart, hfinish⟩ := exists_trim text
  rw [htext, List.append_assoc] at h
  exact ⟨_, _, (h.drop_start hstart).drop_end hfinish⟩

open GraphCalc.Grammar in
/-- A stretch of a text, without the blanks at its ends, is read as the tree that its tokens derive. -/
theorem Written.read_trim {callable : String → Bool} {need : ℕ} {e : Expr}
    (h : Written p ts text rest) (htakes : SumTakes callable need ts e) (hneed : need ≤ Parse.room) :
    Expr.read callable (String.ofList (Text.trim text)) = .ok e := by
  obtain ⟨q, behind, htrim⟩ := h.trim
  obtain ⟨us, hscan, halike⟩ := htrim.exists_scan 0
  have hparse : Expr.parseWithin Parse.room callable ⟨ts, 0⟩ = .ok e :=
    parseWithin_eq_ok_iff_takes.mpr ⟨need, hneed, htakes⟩
  have hread : Expr.parse callable ⟨us, (Text.trim text).length⟩ = .ok e :=
    parseWithin_of_same halike hparse
  rw [Expr.read, Expr.readWithin, String.toList_ofList, scan, hscan]
  exact hread

end Parts
end GraphCalc.Token
