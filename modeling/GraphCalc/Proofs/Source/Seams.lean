import GraphCalc.Proofs.Source.RoundTrip
import GraphCalc.Proofs.Source.Written

/-! # Texts joined at marks

A bracket or a comma is a lexeme by itself. So the tokens of a text do not change when such a mark
is put behind it, and a text in which a mark stands is taken apart there without looking at its
tokens. Main notions and statements:

* `marks`: the brackets and the comma;
* `Written.cut_at_mark`, `Written.join_at_mark`: the tokens of a text on both sides of a mark in it;
* `Written.before_mark`: the tokens of a text alone are its tokens in front of a mark;
* `Expr.readWithin_of_written`, `Expr.exists_takes_before_mark`: a text is read alone as it is in
  front of a mark.
-/

namespace GraphCalc
open GraphCalc.Text
set_option autoImplicit false

namespace Token

/-- The characters that are lexemes wherever they stand. -/
def marks : List Char := ['(', ')', ',']

section Marks
variable {p : ℕ} {c : Char} {kind : Kind} {ts : List Token}
  {word text before after rest : List Char}

theorem isBlank_of_mark (hc : c ∈ marks) : isBlank c = false := by
  simp only [marks, List.mem_cons, List.not_mem_nil, or_false] at hc
  rcases hc with rfl | rfl | rfl <;> decide

/-- A longest lexeme does not grow over a mark. -/
theorem Munch.before_mark (h : Munch kind word text) (hc : c ∈ marks) (rest : List Char) :
    Munch kind word (text ++ c :: rest) := by
  refine ⟨h.lexeme, ?_⟩
  intro kind' word' h' hahead
  rw [← List.append_assoc] at hahead
  by_cases hlength : word'.length ≤ (word ++ text).length
  · have hword := List.prefix_of_prefix_length_le hahead (List.prefix_append ..) hlength
    exact h.longest kind' word' h' hword
  · -- A longer lexeme would hold the mark, and so be nothing else.
    have hmem : c ∈ word' := mem_of_longer_prefix hahead (Nat.lt_of_not_le hlength)
    have hword := h'.eq_singleton_of_mark hmem hc
    have hpos := List.length_pos_iff.mpr h.lexeme.ne_nil
    rw [hword, List.length_singleton]
    exact hpos

theorem Written.before_mark (h : Written p ts text []) (hc : c ∈ marks) (rest : List Char) :
    Written p ts text (c :: rest) := by
  generalize hbehind : ([] : List Char) = behind at h
  induction h with
  | nil => exact .nil
  | blank hblank _ ih => exact .blank hblank (ih hbehind)
  | token hword _ ih =>
    subst hbehind
    rw [List.append_nil] at hword
    exact .token (hword.before_mark hc rest) (ih rfl)

/-- The tokens of a text are the same at every place, up to their positions. -/
theorem Written.exists_at (h : Written p ts text rest) (q : ℕ) :
    ∃ us, Written q us text rest ∧ List.Forall₂ (Alike id) ts us := by
  induction h generalizing q with
  | nil => exact ⟨[], .nil, .nil⟩
  | blank hc _ ih =>
    obtain ⟨us, hwritten, halike⟩ := ih (q + 1)
    exact ⟨us, .blank hc hwritten, halike⟩
  | @token p tokens kind word text rest hword _ ih =>
    obtain ⟨us, hwritten, halike⟩ := ih (q + word.length)
    exact ⟨_, .token hword hwritten, .cons ⟨rfl, by simp⟩ halike⟩

/-- A text is cut at a mark in it: the mark is a token, between the tokens before and behind it. -/
theorem Written.cut_at_mark (h : Written p ts (before ++ c :: after) rest) (hc : c ∈ marks) :
    ∃ us kind vs, ts = us ++ ⟨kind, String.ofList [c], p + before.length⟩ :: vs ∧
      IsLexeme kind [c] ∧ Written p us before (c :: (after ++ rest)) ∧
      Written (p + before.length + 1) vs after rest := by
  generalize hwhole : before ++ c :: after = whole at h
  induction h generalizing before with
  | nil => simp at hwhole
  | @blank p ts d text rest hd h ih =>
    cases before with
    | nil =>
      obtain ⟨rfl, -⟩ := List.cons.inj hwhole
      rw [isBlank_of_mark hc] at hd
      cases hd
    | cons e before =>
      obtain ⟨rfl, htail⟩ := List.cons.inj hwhole
      obtain ⟨us, kind, vs, rfl, hmark, hbefore, hafter⟩ := ih htail
      have hplace : p + (e :: before).length = p + 1 + before.length := by
        rw [List.length_cons]
        omega
      rw [hplace]
      exact ⟨us, kind, vs, rfl, hmark, .blank hd hbefore, hafter⟩
  | @token p ts kind word text rest hword h ih =>
    have hwithin : ∀ tip, before = word ++ tip → text = tip ++ c :: after → ∃ us kind' vs,
        (⟨kind, String.ofList word, p⟩ : Token) :: ts =
          us ++ ⟨kind', String.ofList [c], p + before.length⟩ :: vs ∧
        IsLexeme kind' [c] ∧ Written p us before (c :: (after ++ rest)) ∧
        Written (p + before.length + 1) vs after rest := by
      rintro tip rfl rfl
      obtain ⟨us, kind', vs, rfl, hmark, hbefore, hafter⟩ := ih rfl
      have hplace : p + (word ++ tip).length = p + word.length + tip.length := by
        rw [List.length_append]
        omega
      rw [hplace]
      rw [List.append_assoc] at hword
      exact ⟨_ :: us, kind', vs, rfl, hmark, .token hword hbefore, hafter⟩
    rcases List.append_eq_append_iff.mp hwhole with ⟨tip, hword', htip⟩ | ⟨tip, hbefore, htext⟩
    · cases tip with
      | nil => exact hwithin [] (by rw [hword', List.append_nil, List.append_nil]) htip.symm
      | cons d tip =>
        -- The mark is in the word, which is then the mark alone.
        obtain ⟨rfl, htext⟩ := List.cons.inj htip
        have hmark := hword.lexeme.eq_singleton_of_mark (c := c) (by simp [hword']) hc
        rw [hmark] at hword' hword h
        obtain ⟨rfl, rfl⟩ : before = [] ∧ tip = [] := by
          simpa [List.append_eq_cons_iff] using hword'.symm
        obtain rfl : after = text := htext
        rw [hmark]
        exact ⟨[], kind, ts, rfl, hword.lexeme, .nil, h⟩
    · exact hwithin tip hbefore htext

/-- A text is put together at a mark. -/
theorem Written.join_at_mark {us : List Token} (h : Written p ts before (c :: (after ++ rest)))
    (hmark : IsLexeme kind [c]) (hc : c ∈ marks)
    (h' : Written (p + before.length + 1) us after rest) :
    Written p (ts ++ ⟨kind, String.ofList [c], p + before.length⟩ :: us) (before ++ c :: after)
      rest := by
  have hword : Munch kind [c] (after ++ rest) := by
    refine munch_single hmark ?_ ?_ _
    all_goals
      simp only [marks, List.mem_cons, List.not_mem_nil, or_false] at hc
      rcases hc with rfl | rfl | rfl <;> decide
  exact h.append (.token hword h')

/-- A text that is one lexeme has this lexeme as its only token. -/
theorem Written.eq_singleton (h : Written p ts word rest) (hword : Munch kind word rest) :
    ts = [⟨kind, String.ofList word, p⟩] := by
  cases h with
  | nil => exact absurd rfl hword.lexeme.ne_nil
  | blank hc _ =>
    rw [hword.lexeme.not_blank List.mem_cons_self] at hc
    cases hc
  | @token _ ts kind' word' text _ hword' htail =>
    have hle : (word' ++ text).length ≤ word'.length := by
      refine hword'.longest _ _ hword.lexeme ?_
      rw [← List.append_assoc]
      exact List.prefix_append ..
    rw [List.length_append] at hle
    obtain rfl : text = [] := List.eq_nil_of_length_eq_zero (by omega)
    rw [List.append_nil] at hword ⊢
    rw [htail.eq_nil (by simp), hword'.lexeme.kind_unique hword.lexeme]

end Marks
end Token

/-! ## Reading at a mark -/

namespace Expr
open GraphCalc.Token GraphCalc.Grammar

section Reading
variable {callable : String → Bool} {room : ℕ} {text : List Char} {e : Expr}

/-- A text is read alone as the tree of its tokens, wherever it stood. -/
theorem readWithin_of_written {p n : ℕ} {ts : List Token} {rest : List Char}
    (h : Written p ts text rest) (htakes : SumTakes callable n ts e) (hn : n ≤ room) :
    readWithin room callable (String.ofList text) = .ok e := by
  obtain ⟨us, hscan, halike⟩ := h.exists_scan 0
  have hparse : parseWithin room callable ⟨ts, 0⟩ = .ok e :=
    parseWithin_eq_ok_iff_takes.mpr ⟨n, hn, htakes⟩
  have hread : parseWithin room callable ⟨us, text.length⟩ = .ok e :=
    parseWithin_of_same halike hparse
  rw [readWithin, String.toList_ofList, Token.scan, hscan]
  exact hread

theorem exists_takes_of_readWithin (h : readWithin room callable (String.ofList text) = .ok e) :
    ∃ ts n, Written 0 ts text [] ∧ SumTakes callable n ts e ∧ n ≤ room := by
  rw [readWithin, String.toList_ofList] at h
  split at h
  · next stream hscan =>
    obtain ⟨n, hn, htakes⟩ := parseWithin_eq_ok_iff_takes.mp h
    exact ⟨stream.tokens, n, (scans_of_scan hscan).1.written, htakes, hn⟩
  · cases h

/-- In front of a mark a text has the tokens of the tree that it is read as alone. -/
theorem exists_takes_before_mark {c : Char}
    (h : readWithin room callable (String.ofList text) = .ok e) (hc : c ∈ marks) (p : ℕ)
    (rest : List Char) :
    ∃ ts n, Written p ts text (c :: rest) ∧ SumTakes callable n ts e ∧ n ≤ room := by
  obtain ⟨ts, n, hwritten, htakes, hn⟩ := exists_takes_of_readWithin h
  obtain ⟨us, hmoved, halike⟩ := (hwritten.before_mark hc rest).exists_at p
  have hparse : parseWithin room callable ⟨ts, 0⟩ = .ok e :=
    parseWithin_eq_ok_iff_takes.mpr ⟨n, hn, htakes⟩
  have hmovedParse : parseWithin room callable ⟨us, 0⟩ = .ok e := parseWithin_of_same halike hparse
  obtain ⟨m, hm, hmovedTakes⟩ := parseWithin_eq_ok_iff_takes.mp hmovedParse
  exact ⟨us, m, hmoved, hmovedTakes, hm⟩

theorem readWithin_mono {room' : ℕ} (hle : room ≤ room') {text : String}
    (h : readWithin room callable text = .ok e) : readWithin room' callable text = .ok e := by
  rw [← String.ofList_toList (s := text)] at h ⊢
  obtain ⟨ts, n, hwritten, htakes, hn⟩ := exists_takes_of_readWithin h
  exact readWithin_of_written hwritten htakes (hn.trans hle)

end Reading
end Expr
end GraphCalc
