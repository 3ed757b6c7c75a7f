import GraphCalc.Proofs.Number.Bits

/-! # The order of doubles

Doubles are ordered by their bits: without the sign, a larger number has larger bits. The *rank* of a
double is this integer with its sign, so that the undefined value apart doubles compare as their
ranks do, and the two zeros have one rank. Main notions and statements:

* `Canonical`: the mantissas and exponents in which doubles are written;
* `unpack_forms`: the four forms of a double;
* `rank`: the place of a double among all doubles;
* `lt_iff`, `le_iff`, `beq_iff`: comparisons are comparisons of ranks.
-/

namespace GraphCalc.Binary64
open Float.Model Float.Model.UnpackedFloat
set_option autoImplicit false

/-! ## Canonical forms -/

/-- The mantissa and the exponent of a positive double: the mantissa has 53 bits, unless the exponent
is the least one. -/
structure Canonical (m : ℕ) (e : ℤ) : Prop where
  pos : 0 < m
  lt : m < 2 ^ 53
  least : -1074 ≤ e
  greatest : e ≤ 971
  full : 2 ^ 52 ≤ m ∨ e = -1074

/-- The bits of a mantissa and an exponent. The top bit of a full mantissa counts in the field of the
exponent. -/
def fieldBits (m : ℕ) (e : ℤ) : ℕ := (e + 1074).toNat * 2 ^ 52 + m

theorem unpack_forms (v : Float) :
    (magnitude v = 0 ∧ v.toModel.unpack = .zero (signOf v.toBits.toNat)) ∨
    (∃ m e h, Canonical m e ∧ magnitude v = fieldBits m e ∧
      v.toModel.unpack = .finite (signOf v.toBits.toNat) m e h) ∨
    (magnitude v = infinityBits ∧ v.toModel.unpack = .infinity (signOf v.toBits.toNat)) ∨
    (infinityBits < magnitude v ∧ v.toModel.unpack = .notANumber) := by
  rcases unpack_cases v.toBits.toBitVec with h | ⟨h1, h2, hpos, hu⟩ | ⟨h1, h2, hpos, hu⟩ | h | h
  · exact .inl h
  · refine .inr (.inl ⟨_, _, hpos, ⟨hpos, by omega, by omega, by omega, .inr rfl⟩, ?_, hu⟩)
    show v.toBits.toBitVec.toNat % 2 ^ 63 = _
    rw [fieldBits]
    omega
  · unfold infinityBits at h2
    refine .inr (.inl ⟨_, _, hpos, ⟨hpos, by omega, by omega, by omega, .inl (by omega)⟩, ?_, hu⟩)
    show v.toBits.toBitVec.toNat % 2 ^ 63 = _
    rw [fieldBits]
    omega
  · exact .inr (.inr (.inl h))
  · exact .inr (.inr (.inr h))

section Canonical
variable {m n : ℕ} {e f : ℤ}

theorem Canonical.lt_infinityBits (h : Canonical m e) : fieldBits m e < infinityBits := by
  have := h.lt
  have := h.greatest
  rw [fieldBits, infinityBits]
  omega

theorem Canonical.fieldBits_pos (h : Canonical m e) : 0 < fieldBits m e :=
  Nat.add_pos_right _ h.pos

/-- Of two doubles the one with the larger exponent is larger, and among those of one exponent the one
with the larger mantissa. -/
theorem Canonical.compare_eq (h : Canonical m e) (h' : Canonical n f) :
    (compare e f).then (compare m n) = compare (fieldBits m e) (fieldBits n f) := by
  obtain ⟨-, hm, he, -, hfull⟩ := h
  obtain ⟨-, hn, hf, -, hfull'⟩ := h'
  unfold fieldBits
  rcases lt_trichotomy e f with hlt | rfl | hlt
  -- one step of the exponent is worth more than any difference of mantissas
  · have hbits : (e + 1074).toNat * 2 ^ 52 + m < (f + 1074).toNat * 2 ^ 52 + n := by omega
    rw [compare_lt_iff_lt.mpr hlt, compare_lt_iff_lt.mpr hbits]
    rfl
  · rw [compare_eq_iff_eq.mpr rfl]
    show compare m n = _
    rcases lt_trichotomy m n with hmn | rfl | hmn
    · rw [compare_lt_iff_lt.mpr hmn, compare_lt_iff_lt.mpr (by omega)]
    · rw [compare_eq_iff_eq.mpr rfl, compare_eq_iff_eq.mpr rfl]
    · rw [compare_gt_iff_gt.mpr hmn, compare_gt_iff_gt.mpr (by omega)]
  · have hbits : (f + 1074).toNat * 2 ^ 52 + n < (e + 1074).toNat * 2 ^ 52 + m := by omega
    rw [compare_gt_iff_gt.mpr hlt, compare_gt_iff_gt.mpr hbits]
    rfl

end Canonical

/-! ## Ranks -/

/-- The place of a double in the order of doubles: the bits without the sign, under the sign. -/
def rank (v : Float) : ℤ := (signOf v.toBits.toNat).apply (magnitude v)

theorem natAbs_rank (v : Float) : (rank v).natAbs = magnitude v := by
  unfold rank
  cases signOf v.toBits.toNat <;> simp [Sign.apply]

/-- The numbers among the unpacked forms of doubles. -/
inductive IsNumber : UnpackedFloat → Prop where
  | zero (s : Sign) : IsNumber (.zero s)
  | finite (s : Sign) {m : ℕ} {e : ℤ} (h : 0 < m) (hc : Canonical m e) : IsNumber (.finite s m e h)
  | infinity (s : Sign) : IsNumber (.infinity s)

/-- The rank of an unpacked form. -/
def formRank : UnpackedFloat → ℤ
  | .zero _ => 0
  | .finite s m e _ => s.apply (fieldBits m e)
  | .infinity s => s.apply infinityBits
  | .notANumber => 0

theorem isNumber_unpack {v : Float} (h : v.isNaN = false) :
    IsNumber v.toModel.unpack ∧ formRank v.toModel.unpack = rank v := by
  have hle := magnitude_le h
  unfold rank
  rcases unpack_forms v with ⟨h0, hu⟩ | ⟨m, e, hpos, hc, h0, hu⟩ | ⟨h0, hu⟩ | ⟨h0, -⟩
  · rw [hu, h0]
    refine ⟨.zero _, ?_⟩
    cases signOf v.toBits.toNat <;> rfl
  · rw [hu, h0]
    exact ⟨.finite _ hpos hc, rfl⟩
  · rw [hu, h0]
    exact ⟨.infinity _, rfl⟩
  · omega

theorem unpack_of_isNaN {v : Float} (h : v.isNaN = true) : v.toModel.unpack = .notANumber := by
  rw [isNaN_iff] at h
  rcases unpack_forms v with ⟨h0, -⟩ | ⟨m, e, -, hc, h0, -⟩ | ⟨h0, -⟩ | ⟨-, hu⟩
  · omega
  · have := hc.lt_infinityBits
    omega
  · omega
  · exact hu

/-! ## Comparisons -/

theorem lt_eq_compare {a b : ℤ} : Ordering.lt = compare a b ↔ a < b :=
  eq_comm.trans compare_lt_iff_lt

theorem gt_eq_compare {a b : ℤ} : Ordering.gt = compare a b ↔ b < a :=
  eq_comm.trans compare_gt_iff_gt

theorem compare_natCast (m n : ℕ) : compare (m : ℤ) (n : ℤ) = compare m n := by
  rcases lt_trichotomy m n with h | rfl | h
  · rw [compare_lt_iff_lt.mpr h, compare_lt_iff_lt.mpr (by omega)]
  · rw [compare_eq_iff_eq.mpr rfl, compare_eq_iff_eq.mpr rfl]
  · rw [compare_gt_iff_gt.mpr h, compare_gt_iff_gt.mpr (by omega)]

theorem swap_compare_natCast (m n : ℕ) : compare (-m : ℤ) (-n : ℤ) = (compare m n).swap := by
  rcases lt_trichotomy m n with h | rfl | h
  · rw [compare_lt_iff_lt.mpr h, compare_gt_iff_gt.mpr (by omega)]
    rfl
  · rw [compare_eq_iff_eq.mpr rfl, compare_eq_iff_eq.mpr rfl]
    rfl
  · rw [compare_gt_iff_gt.mpr h, compare_lt_iff_lt.mpr (by omega)]
    rfl

theorem IsNumber.compare_eq {x y : UnpackedFloat} (hx : IsNumber x) (hy : IsNumber y) :
    x.compare y = some (compare (formRank x) (formRank y)) := by
  have hinf : 0 < infinityBits := by decide
  cases hx with
  | zero s =>
    cases hy with
    | zero t => simp [UnpackedFloat.compare, formRank]
    | @finite t n f _ hc' =>
      have hpos := hc'.fieldBits_pos
      cases t <;> simp [UnpackedFloat.compare, formRank, Sign.apply, lt_eq_compare, gt_eq_compare,
        hpos]
    | infinity t =>
      cases t <;> simp [UnpackedFloat.compare, formRank, Sign.apply, lt_eq_compare, gt_eq_compare,
        hinf]
  | @finite s m e _ hc =>
    have hpos := hc.fieldBits_pos
    have hlt := hc.lt_infinityBits
    cases hy with
    | zero t =>
      cases s <;> simp [UnpackedFloat.compare, formRank, Sign.apply, lt_eq_compare, gt_eq_compare,
        hpos]
    | @finite t n f _ hc' =>
      have hpos' := hc'.fieldBits_pos
      cases s <;> cases t <;> simp [UnpackedFloat.compare, formRank, Sign.apply, lt_eq_compare,
        gt_eq_compare, hc.compare_eq hc', compare_natCast, swap_compare_natCast]
      · omega
      · omega
    | infinity t =>
      cases s <;> cases t <;> simp [UnpackedFloat.compare, formRank, Sign.apply, lt_eq_compare,
        gt_eq_compare, hlt]
      all_goals omega
  | infinity s =>
    cases hy with
    | zero t =>
      cases s <;> simp [UnpackedFloat.compare, formRank, Sign.apply, lt_eq_compare, gt_eq_compare,
        hinf]
    | @finite t n f _ hc' =>
      have hlt := hc'.lt_infinityBits
      cases s <;> cases t <;> simp [UnpackedFloat.compare, formRank, Sign.apply, lt_eq_compare,
        gt_eq_compare, hlt]
      all_goals omega
    | infinity t => cases s <;> cases t <;> rfl

section Comparisons
variable {u v w : Float}

/-- The undefined value compares with nothing, and other doubles compare as their ranks do. -/
theorem compare_eq (v w : Float) : v.toModel.unpack.compare w.toModel.unpack =
    if v.isNaN = false ∧ w.isNaN = false then some (compare (rank v) (rank w)) else none := by
  cases hv : v.isNaN with
  | true =>
    rw [unpack_of_isNaN hv, if_neg (by simp)]
    rfl
  | false =>
    obtain ⟨hx, hrank⟩ := isNumber_unpack hv
    cases hw : w.isNaN with
    | true =>
      rw [unpack_of_isNaN hw, if_neg (by simp)]
      generalize v.toModel.unpack = x at hx
      cases hx <;> rfl
    | false =>
      obtain ⟨hy, hrank'⟩ := isNumber_unpack hw
      rw [hx.compare_eq hy, hrank, hrank', if_pos ⟨rfl, rfl⟩]

theorem lt_iff : v < w ↔ v.isNaN = false ∧ w.isNaN = false ∧ rank v < rank w := by
  show decide (v.toModel.unpack.compare w.toModel.unpack == some .lt) = true ↔ _
  rw [compare_eq, ← and_assoc]
  by_cases h : v.isNaN = false ∧ w.isNaN = false
  · rw [if_pos h, and_iff_right h]
    simp [compare_lt_iff_lt]
  · rw [if_neg h]
    exact iff_of_false (by simp) fun hlt => h hlt.1

theorem le_iff : v ≤ w ↔ v.isNaN = false ∧ w.isNaN = false ∧ rank v ≤ rank w := by
  show decide ((v.toModel.unpack.compare w.toModel.unpack).any (·.isLE) = true) = true ↔ _
  rw [compare_eq, ← and_assoc]
  by_cases h : v.isNaN = false ∧ w.isNaN = false
  · rw [if_pos h, and_iff_right h]
    simp [Std.isLE_compare]
  · rw [if_neg h]
    exact iff_of_false (by simp) fun hle => h hle.1

theorem le_trans_of (h : u ≤ v) (h' : v ≤ w) : u ≤ w := by
  rw [le_iff] at *
  exact ⟨h.1, h'.2.1, h.2.2.trans h'.2.2⟩

theorem not_lt_of (h : v ≤ w) : ¬ w < v := by
  intro hlt
  exact (lt_iff.mp hlt).2.2.not_ge (le_iff.mp h).2.2

theorem le_of_less (h : v < w) : v ≤ w := by
  obtain ⟨hv, hw, hlt⟩ := lt_iff.mp h
  exact le_iff.mpr ⟨hv, hw, hlt.le⟩

theorem less_of_less_le (h : u < v) (h' : v ≤ w) : u < w := by
  obtain ⟨hu, -, hlt⟩ := lt_iff.mp h
  obtain ⟨-, hw, hle⟩ := le_iff.mp h'
  exact lt_iff.mpr ⟨hu, hw, hlt.trans_le hle⟩

theorem beq_iff : (v == w) = true ↔ v.isNaN = false ∧ w.isNaN = false ∧ rank v = rank w := by
  show (v.toModel.unpack.compare w.toModel.unpack == some .eq) = true ↔ _
  rw [compare_eq, ← and_assoc]
  by_cases h : v.isNaN = false ∧ w.isNaN = false
  · rw [if_pos h, and_iff_right h]
    simp
  · rw [if_neg h]
    exact iff_of_false (by simp) fun heq => h heq.1

theorem beq_swap (v w : Float) : (v == w) = (w == v) := by
  rw [Bool.eq_iff_iff, beq_iff, beq_iff]
  tauto

/-! Between numbers the comparisons are those of the ranks. -/

theorem lt_iff_rank (hv : v.isNaN = false) (hw : w.isNaN = false) : v < w ↔ rank v < rank w := by
  rw [lt_iff, and_iff_right hv, and_iff_right hw]

theorem le_iff_rank (hv : v.isNaN = false) (hw : w.isNaN = false) : v ≤ w ↔ rank v ≤ rank w := by
  rw [le_iff, and_iff_right hv, and_iff_right hw]

theorem beq_iff_rank (hv : v.isNaN = false) (hw : w.isNaN = false) :
    (v == w) = true ↔ rank v = rank w := by
  rw [beq_iff, and_iff_right hv, and_iff_right hw]

theorem le_of_not_less (hv : v.isNaN = false) (hw : w.isNaN = false) (h : ¬ v < w) : w ≤ v := by
  rw [lt_iff_rank hv hw, Int.not_lt] at h
  exact (le_iff_rank hw hv).mpr h

end Comparisons
end GraphCalc.Binary64
