import GraphCalc.Plot.Graph
import Mathlib.Data.List.TakeWhile
import Mathlib.Tactic.Common

/-! # Runs as stretches of places

`runs` walks through a list and cuts off one run after the other. Here a run is described by where
it lies: a stretch of places that all have the property, and that cannot be made longer at either
end. Main notions and statements:

* `Stretch`, `Stretch.IsRun`: consecutive places of a list, and when they are a run of it;
* `exists_stretches`: `runs` gives every run of a list once, from left to right, with a member
  without the property between one and the next;
* `flatten_members_runs`: together the runs have the members with the property, in their order.
-/

namespace GraphCalc
set_option autoImplicit false

variable {α : Type} {property : α → Bool} {list front rest : List α}

/-! ## Stretches -/

/-- Consecutive places of a list, from `start` on and before `finish`. -/
structure Stretch where
  start : ℕ
  finish : ℕ

/-- Whether a list has a member with a property at a place. -/
def HoldsAt (property : α → Bool) (list : List α) (i : ℕ) : Prop :=
  ∃ a, list[i]? = some a ∧ property a = true

namespace Stretch

def members (s : Stretch) (list : List α) : List α :=
  (list.drop s.start).take (s.finish - s.start)

/-- The members in a stretch, as a run. -/
def run (s : Stretch) (list : List α) : Run α := ⟨s.members list, s.finish == list.length⟩

def shift (k : ℕ) (s : Stretch) : Stretch := ⟨s.start + k, s.finish + k⟩

/-- A stretch of places that all have a property, and not the one before nor the one behind. -/
structure IsRun (property : α → Bool) (list : List α) (s : Stretch) : Prop where
  nonempty : s.start < s.finish
  holds : ∀ i, s.start ≤ i → i < s.finish → HoldsAt property list i
  before : ∀ i, i + 1 = s.start → ¬ HoldsAt property list i
  behind : ¬ HoldsAt property list s.finish

end Stretch

/-! ## Places with a property -/

theorem HoldsAt.lt_length {i : ℕ} (h : HoldsAt property list i) : i < list.length := by
  obtain ⟨a, ha, -⟩ := h
  exact (List.getElem?_eq_some_iff.mp ha).1

theorem holdsAt_of_forall {i : ℕ} (h : ∀ a ∈ list, property a = true) (hi : i < list.length) :
    HoldsAt property list i :=
  ⟨list[i], List.getElem?_eq_getElem hi, h _ (List.getElem_mem hi)⟩

theorem holdsAt_append_left {i : ℕ} (hi : i < front.length) :
    HoldsAt property (front ++ rest) i ↔ HoldsAt property front i := by
  simp only [HoldsAt, List.getElem?_append_left hi]

theorem holdsAt_append_right (i : ℕ) :
    HoldsAt property (front ++ rest) (i + front.length) ↔ HoldsAt property rest i := by
  simp only [HoldsAt, List.getElem?_append_right (Nat.le_add_left _ _), Nat.add_sub_cancel]

theorem not_holdsAt_dropWhile : ¬ HoldsAt property (list.dropWhile property) 0 := by
  rintro ⟨a, ha, hproperty⟩
  have hhead := List.head?_dropWhile_not property list
  rw [← List.head?_eq_getElem?] at ha
  simp [ha, hproperty] at hhead

/-! ## Stretches behind other members -/

namespace Stretch

theorem members_shift (s : Stretch) :
    (s.shift front.length).members (front ++ rest) = s.members rest := by
  have hfront : front.drop (s.start + front.length) = [] :=
    List.drop_eq_nil_of_le (Nat.le_add_left _ _)
  simp only [members, shift, List.drop_append, hfront, Nat.add_sub_cancel, Nat.add_sub_add_right,
    List.nil_append]

theorem run_shift (s : Stretch) : (s.shift front.length).run (front ++ rest) = s.run rest := by
  have hend : (s.finish + front.length == (front ++ rest).length) = (s.finish == rest.length) := by
    rw [Bool.eq_iff_iff, beq_iff_eq, beq_iff_eq, List.length_append]
    omega
  rw [run, members_shift, shift, hend, run]

/-- The runs that lie in the second of two lists, if no run goes across the seam. -/
theorem isRun_shift {s : Stretch}
    (seam : ∀ i, i + 1 = front.length → HoldsAt property front i → ¬ HoldsAt property rest 0) :
    (s.shift front.length).IsRun property (front ++ rest) ↔ s.IsRun property rest := by
  constructor
  · intro h
    refine ⟨Nat.lt_of_add_lt_add_right h.nonempty, ?_, ?_, ?_⟩
    · intro i hstart hfinish
      have hat := h.holds (i + front.length) (Nat.add_le_add_right hstart _)
        (Nat.add_lt_add_right hfinish _)
      exact (holdsAt_append_right i).mp hat
    · intro i hi
      have hat := h.before (i + front.length) (by simp only [shift]; omega)
      rwa [holdsAt_append_right] at hat
    · have hat := h.behind
      rwa [shift, holdsAt_append_right] at hat
  · intro h
    refine ⟨Nat.add_lt_add_right h.nonempty _, ?_, ?_, ?_⟩
    · intro i hstart hfinish
      simp only [shift] at hstart hfinish
      obtain ⟨j, rfl⟩ := Nat.exists_eq_add_of_le' (Nat.le_of_add_left_le hstart)
      exact (holdsAt_append_right j).mpr (h.holds j (by omega) (by omega))
    · intro i hi
      simp only [shift] at hi
      by_cases hlt : i < front.length
      · -- The stretch begins at the seam, where a holding place before it would break the seam.
        have hstart : s.start = 0 := by omega
        intro hat
        exact seam i (by omega) ((holdsAt_append_left hlt).mp hat)
          (h.holds 0 hstart.le (hstart ▸ h.nonempty))
      · obtain ⟨j, rfl⟩ := Nat.exists_eq_add_of_le' (Nat.not_lt.mp hlt)
        rw [holdsAt_append_right]
        exact h.before j (by omega)
    · rw [shift, holdsAt_append_right]
      exact h.behind

theorem exists_shift {s : Stretch} {k : ℕ} (hle : k ≤ s.start) (hlt : s.start < s.finish) :
    ∃ t : Stretch, t.shift k = s := by
  refine ⟨⟨s.start - k, s.finish - k⟩, ?_⟩
  simp only [shift, Nat.sub_add_cancel hle, Nat.sub_add_cancel (hle.trans hlt.le)]

namespace IsRun
variable {s t : Stretch}

theorem finish_le (h : s.IsRun property list) : s.finish ≤ list.length := by
  have hlast := h.holds (s.finish - 1) (Nat.le_sub_one_of_lt h.nonempty)
    (Nat.sub_one_lt_of_lt h.nonempty)
  have hlt := hlast.lt_length
  omega

theorem length_members (h : s.IsRun property list) :
    (s.members list).length = s.finish - s.start := by
  have hle := h.finish_le
  rw [members, List.length_take, List.length_drop]
  omega

theorem members_ne_nil (h : s.IsRun property list) : s.members list ≠ [] := by
  have hlength := h.length_members
  have hlt := h.nonempty
  intro hnil
  rw [hnil, List.length_nil] at hlength
  omega

theorem head?_members (h : s.IsRun property list) :
    (s.members list).head? = list[s.start]? := by
  rw [List.head?_eq_getElem?, members, List.getElem?_take_of_lt (Nat.sub_pos_of_lt h.nonempty),
    List.getElem?_drop, Nat.add_zero]

theorem getLast?_members (h : s.IsRun property list) :
    (s.members list).getLast? = list[s.finish - 1]? := by
  have hlt := h.nonempty
  have hplace : s.start + (s.finish - s.start - 1) = s.finish - 1 := by omega
  rw [List.getLast?_eq_getElem?, h.length_members, members,
    List.getElem?_take_of_lt (by omega), List.getElem?_drop, hplace]

/-- Between a run and a later one there is a member without the property. -/
theorem exists_gap (hs : s.IsRun property list) (ht : t.IsRun property list)
    (hlt : s.finish < t.start) :
    ∃ i a, s.finish ≤ i ∧ i < t.start ∧ list[i]? = some a ∧ property a = false := by
  have hlength : s.finish < list.length := (hlt.trans ht.nonempty).trans_le ht.finish_le
  refine ⟨s.finish, list[s.finish], le_rfl, hlt, List.getElem?_eq_getElem hlength, ?_⟩
  rw [← Bool.not_eq_true]
  intro hholds
  exact hs.behind ⟨_, List.getElem?_eq_getElem hlength, hholds⟩

end IsRun

/-- The only run that begins inside a stretch at the start of a list is that stretch, if it is a
run itself. -/
theorem IsRun.eq_of_start_lt {s : Stretch} (h : s.IsRun property (front ++ rest))
    (hall : ∀ a ∈ front, property a = true) (hrest : ¬ HoldsAt property rest 0)
    (hlt : s.start < front.length) : s = ⟨0, front.length⟩ := by
  have hstart : s.start = 0 := by
    by_contra hne
    obtain ⟨i, hi⟩ := Nat.exists_eq_add_one_of_ne_zero hne
    have hlt' : i < front.length := by omega
    exact h.before i hi.symm ((holdsAt_append_left hlt').mpr (holdsAt_of_forall hall hlt'))
  have hge : front.length ≤ s.finish := by
    by_contra hgt
    have hgt := Nat.not_le.mp hgt
    exact h.behind ((holdsAt_append_left hgt).mpr (holdsAt_of_forall hall hgt))
  have hle : s.finish ≤ front.length := by
    by_contra hgt
    have hat := h.holds front.length (by omega) (Nat.not_le.mp hgt)
    rw [← Nat.zero_add front.length, holdsAt_append_right] at hat
    exact hrest hat
  cases s
  simp_all only [Stretch.mk.injEq, true_and]
  exact Nat.le_antisymm hle hge

theorem run_front : (⟨0, front.length⟩ : Stretch).run (front ++ rest) = ⟨front, rest.isEmpty⟩ := by
  have hend : (front.length == (front ++ rest).length) = rest.isEmpty := by
    rw [Bool.eq_iff_iff, beq_iff_eq, List.isEmpty_iff_length_eq_zero, List.length_append]
    omega
  rw [run, members, hend, List.drop_zero, Nat.sub_zero, List.take_left]

theorem isRun_front (hne : 0 < front.length) (hall : ∀ a ∈ front, property a = true)
    (hrest : ¬ HoldsAt property rest 0) :
    IsRun property (front ++ rest) ⟨0, front.length⟩ := by
  refine ⟨hne, ?_, ?_, ?_⟩
  · intro i _ hlt
    exact (holdsAt_append_left hlt).mpr (holdsAt_of_forall hall hlt)
  · intro i hi
    exact absurd hi (Nat.succ_ne_zero i)
  · have hat : ¬ HoldsAt property (front ++ rest) (0 + front.length) :=
      (holdsAt_append_right 0).not.mpr hrest
    rwa [Nat.zero_add] at hat

end Stretch

/-! ## The runs of a list -/

/-- The runs of a list that begins with a run, of which the rest does not continue it. -/
theorem isRun_run_append_iff {stretches : List Stretch} (hne : 0 < front.length)
    (hall : ∀ a ∈ front, property a = true) (hrest : ¬ HoldsAt property rest 0)
    (h : ∀ s, s ∈ stretches ↔ s.IsRun property rest) (s : Stretch) :
    s ∈ ⟨0, front.length⟩ :: stretches.map (Stretch.shift front.length) ↔
      s.IsRun property (front ++ rest) := by
  have seam : ∀ i, i + 1 = front.length → HoldsAt property front i → ¬ HoldsAt property rest 0 :=
    fun _ _ _ => hrest
  rw [List.mem_cons, List.mem_map]
  constructor
  · rintro (rfl | ⟨t, ht, rfl⟩)
    · exact Stretch.isRun_front hne hall hrest
    · exact (Stretch.isRun_shift seam).mpr ((h t).mp ht)
  · intro hs
    by_cases hlt : s.start < front.length
    · exact .inl (hs.eq_of_start_lt hall hrest hlt)
    · obtain ⟨t, rfl⟩ := Stretch.exists_shift (Nat.not_lt.mp hlt) hs.nonempty
      exact .inr ⟨t, (h t).mpr ((Stretch.isRun_shift seam).mp hs), rfl⟩

/-- A first member without the property belongs to no run. -/
theorem isRun_cons_iff {a : α} {stretches : List Stretch} (ha : property a = false)
    (h : ∀ s, s ∈ stretches ↔ s.IsRun property rest) (s : Stretch) :
    s ∈ stretches.map (Stretch.shift 1) ↔ s.IsRun property (a :: rest) := by
  have hnot : ¬ HoldsAt property [a] 0 := by simp [HoldsAt, ha]
  have seam : ∀ i, i + 1 = [a].length → HoldsAt property [a] i → ¬ HoldsAt property rest 0 := by
    intro i hi hat
    obtain rfl : i = 0 := by simpa using hi
    exact absurd hat hnot
  have hshift : ∀ t : Stretch, (t.shift 1).IsRun property (a :: rest) ↔ t.IsRun property rest :=
    fun t => Stretch.isRun_shift seam
  rw [List.mem_map]
  constructor
  · rintro ⟨t, ht, rfl⟩
    exact (hshift t).mpr ((h t).mp ht)
  · intro hs
    have hle : 1 ≤ s.start := by
      by_contra hlt
      have hstart : s.start = 0 := by omega
      have hat : HoldsAt property ([a] ++ rest) 0 := hs.holds 0 hstart.le (hstart ▸ hs.nonempty)
      exact hnot ((holdsAt_append_left Nat.zero_lt_one).mp hat)
    obtain ⟨t, rfl⟩ := Stretch.exists_shift hle hs.nonempty
    exact ⟨t, (h t).mpr ((hshift t).mp hs), rfl⟩

theorem map_run_shift (stretches : List Stretch) :
    (stretches.map (Stretch.shift front.length)).map (·.run (front ++ rest)) =
      stretches.map (·.run rest) := by
  rw [List.map_map]
  exact List.map_congr_left fun s _ => s.run_shift

theorem pairwise_shift {stretches : List Stretch} (k : ℕ)
    (h : stretches.Pairwise fun s t => s.finish < t.start) :
    (stretches.map (Stretch.shift k)).Pairwise fun s t => s.finish < t.start :=
  h.map _ fun _ _ hlt => Nat.add_lt_add_right hlt k

/-- The runs of a list are all its stretches of places with the property that cannot be made longer,
each once and from left to right. -/
theorem exists_stretches (property : α → Bool) (list : List α) : ∃ stretches : List Stretch,
    runs property list = stretches.map (·.run list) ∧
      (∀ s, s ∈ stretches ↔ s.IsRun property list) ∧
      stretches.Pairwise fun s t => s.finish < t.start := by
  induction list using runs.induct property with
  | case1 =>
    refine ⟨[], by simp [runs], ?_, List.Pairwise.nil⟩
    intro s
    constructor
    · intro h
      cases h
    · intro h
      exact absurd (h.holds s.start le_rfl h.nonempty).lt_length (Nat.not_lt_zero _)
  | case2 a rest ha after ih =>
    obtain ⟨stretches, heq, hmem, hpairwise⟩ := ih
    let front := a :: rest.takeWhile property
    have hlist : a :: rest = front ++ after := by
      simp [front, after, List.takeWhile_append_dropWhile]
    have hall : ∀ b ∈ front, property b = true := by
      intro b hb
      rcases List.mem_cons.mp hb with rfl | hb
      · exact ha
      · exact List.mem_takeWhile_imp hb
    have hne : 0 < front.length := Nat.succ_pos _
    refine ⟨⟨0, front.length⟩ :: stretches.map (Stretch.shift front.length), ?_, ?_, ?_⟩
    · have hrun : (⟨0, front.length⟩ : Stretch).run (a :: rest) = ⟨front, after.isEmpty⟩ := by
        rw [hlist]
        exact Stretch.run_front
      rw [runs, if_pos ha, List.map_cons, hrun, hlist, map_run_shift, ← heq]
    · rw [hlist]
      exact isRun_run_append_iff hne hall not_holdsAt_dropWhile hmem
    · refine List.pairwise_cons.mpr ⟨?_, pairwise_shift _ hpairwise⟩
      intro t ht
      obtain ⟨u, hu, rfl⟩ := List.mem_map.mp ht
      -- A run right behind the first would begin where the property fails.
      have hpos : 0 < u.start := by
        by_contra hzero
        have hzero := Nat.eq_zero_of_not_pos hzero
        have hu := (hmem u).mp hu
        exact not_holdsAt_dropWhile (hu.holds 0 hzero.le (hzero ▸ hu.nonempty))
      exact Nat.lt_add_of_pos_left hpos
  | case3 a rest ha ih =>
    obtain ⟨stretches, heq, hmem, hpairwise⟩ := ih
    refine ⟨stretches.map (Stretch.shift 1), ?_, ?_, pairwise_shift 1 hpairwise⟩
    · have hshift : (stretches.map (Stretch.shift [a].length)).map (·.run ([a] ++ rest)) =
          stretches.map (·.run rest) := map_run_shift stretches
      rw [runs, if_neg ha, heq]
      exact hshift.symm
    · exact isRun_cons_iff (Bool.eq_false_iff.mpr ha) hmem

/-- Every member with the property is in one run and no other member is. -/
theorem flatten_members_runs (property : α → Bool) (list : List α) :
    ((runs property list).map Run.members).flatten = list.filter property := by
  induction list using runs.induct property with
  | case1 => simp [runs]
  | case2 a rest ha after ih =>
    have hsplit : rest.filter property = rest.takeWhile property ++ after.filter property := by
      conv_lhs => rw [← List.takeWhile_append_dropWhile (p := property) (l := rest)]
      rw [List.filter_append, List.filter_eq_self.mpr fun b hb => List.mem_takeWhile_imp hb]
    rw [runs, if_pos ha, List.map_cons, List.flatten_cons, ih, List.filter_cons_of_pos ha, hsplit,
      List.cons_append]
  | case3 a rest ha ih => rw [runs, if_neg ha, ih, List.filter_cons_of_neg ha]

end GraphCalc
