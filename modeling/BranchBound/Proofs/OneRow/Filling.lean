import BranchBound.Proofs.Vector
import BranchBound.Relaxation.OneRow
import Mathlib.Algebra.BigOperators.Group.List.Basic
import Mathlib.Tactic.Ring

/-!
# Filling a row

The greedy part of the relaxation, on columns with a rational lowest activity. What it does is said
in activities: `y j` is the activity of variable `j` in the row, and its value is `y j / a j`.

A price per unit of activity certifies the result. At the price of the last variable raised, what
gains more is at its highest activity, what gains less at its lowest, and the slack is used up; if
all are raised the price is zero (`exists_filled`). So at that price every variable has its cheapest
activity (`Column.Cheapest`), and that is what makes the point a best one.
-/

namespace BranchBound.OneRow

/-! ## Columns with a lowest activity -/

section

variable {d a lo : Nat → ℚ} {c : Column Exact}

/-- A column of the row with given cost, coefficient and lowest activity. -/
structure Column.InRow (d a lo : Nat → ℚ) (c : Column Exact) : Prop where
  cost : c.cost = .ofRat (d c.var)
  coef : c.coef = .ofRat (a c.var)
  ne_zero : a c.var ≠ 0
  low : c.low = .ofRat (lo c.var)
  le : c.low ≤ c.high

/-- Whether an activity is in the range of a column. -/
def Column.Within (c : Column Exact) (y : ℚ) : Prop := c.low ≤ .ofRat y ∧ .ofRat y ≤ c.high

/-- Whether an activity is the cheapest one of a column with a given gain, if a unit of activity has
a price. -/
def Column.Cheapest (c : Column Exact) (price gain y : ℚ) : Prop :=
  ∀ y', c.Within y' → (price - gain) * y ≤ (price - gain) * y'

theorem Column.gain_of_rational {cost coef : ℚ} (hcost : c.cost = .ofRat cost)
    (hcoef : c.coef = .ofRat coef) (hne : coef ≠ 0) : c.gain = .ofRat (-cost / coef) := by
  unfold gain
  rw [hcost, hcoef, Exact.neg_ofRat, Exact.ofRat_div _ hne]

/-- The value of a variable is its activity divided by its coefficient. -/
theorem Column.value_of_activity {coef y : ℚ} (hcoef : c.coef = .ofRat coef) (hne : coef ≠ 0)
    {level : Level Exact} (hy : c.activity level = .ofRat y) :
    c.value level = .ofRat (y / coef) := by
  cases level with
  | «at» z =>
    rw [show z = .ofRat y from hy]
    show Exact.ofRat y / c.coef = _
    rw [hcoef, Exact.ofRat_div _ hne]
  | low =>
    replace hy : c.low = .ofRat y := hy
    unfold Column.low at hy
    unfold value
    rw [hcoef, Exact.zero_eq] at hy ⊢
    dsimp only
    split_ifs at hy ⊢ <;> exact Exact.eq_ofRat_div_of_mul_eq hne hy
  | high =>
    replace hy : c.high = .ofRat y := hy
    unfold Column.high at hy
    unfold value
    rw [hcoef, Exact.zero_eq] at hy ⊢
    dsimp only
    split_ifs at hy ⊢ <;> exact Exact.eq_ofRat_div_of_mul_eq hne hy

namespace Column.InRow

theorem gain_eq (h : c.InRow d a lo) : c.gain = .ofRat (-d c.var / a c.var) :=
  gain_of_rational h.cost h.coef h.ne_zero

theorem within_low (h : c.InRow d a lo) : c.Within (lo c.var) := by
  have hle := h.le
  rw [h.low] at hle
  refine ⟨?_, hle⟩
  rw [h.low]
  exact (Exact.ofRat_le _ _).mpr le_rfl

theorem value_eq (h : c.InRow d a lo) {level : Level Exact} {y : ℚ}
    (hy : c.activity level = .ofRat y) : c.value level = .ofRat (y / a c.var) :=
  value_of_activity h.coef h.ne_zero hy

/-- The highest activity is rational, or there is none. -/
theorem high_cases (h : c.InRow d a lo) : (∃ hi, c.high = .ofRat hi) ∨ c.high = .posInf := by
  have hle := h.le
  rw [h.low] at hle
  cases hhi : c.high with
  | ofRat hi => exact Or.inl ⟨hi, rfl⟩
  | posInf => exact Or.inr rfl
  | negInf =>
    rw [hhi] at hle
    exact absurd hle (Exact.not_ofRat_le_negInf _)
  | nan =>
    rw [hhi] at hle
    exact absurd hle (Exact.not_le_nan _)

/-- The room of a column is that of its activities, without end if the highest is. -/
theorem room_le_iff (h : c.InRow d a lo) {slack : ℚ} :
    c.high - c.low ≤ .ofRat slack ↔ ∃ hi, c.high = .ofRat hi ∧ hi - lo c.var ≤ slack := by
  rw [h.low]
  rcases h.high_cases with ⟨hi, hhi⟩ | hhi
  · rw [hhi, Exact.ofRat_sub, Exact.ofRat_le]
    constructor
    · intro hs
      exact ⟨hi, rfl, hs⟩
    · rintro ⟨hi', hi'eq, hs⟩
      rw [Exact.ofRat.inj hi'eq]
      exact hs
  · rw [hhi]
    constructor
    · intro hs
      exact absurd hs (Exact.not_posInf_le_ofRat slack)
    · rintro ⟨_, hi'eq, -⟩
      cases hi'eq

theorem within_high (h : c.InRow d a lo) {hi : ℚ} (hhi : c.high = .ofRat hi) : c.Within hi := by
  have hle := h.le
  rw [hhi] at hle
  refine ⟨hle, ?_⟩
  rw [hhi]
  exact (Exact.ofRat_le _ _).mpr le_rfl

/-- A slack that does not take all of the room can be added. -/
theorem within_of_no_room (h : c.InRow d a lo) {slack : ℚ} (hs : 0 ≤ slack)
    (hroom : ¬c.high - c.low ≤ .ofRat slack) : c.Within (lo c.var + slack) := by
  constructor
  · rw [h.low, Exact.ofRat_le]
    linarith
  · rw [h.room_le_iff] at hroom
    rcases h.high_cases with ⟨hi, hhi⟩ | hhi
    · rw [hhi, Exact.ofRat_le]
      by_contra hlt
      exact hroom ⟨hi, hhi, by linarith⟩
    · rw [hhi]
      exact Exact.ofRat_le_posInf _

theorem cheapest_low (h : c.InRow d a lo) {price gain : ℚ} (hle : gain ≤ price) :
    c.Cheapest price gain (lo c.var) := by
  intro y hy
  have hlow := hy.1
  rw [h.low, Exact.ofRat_le] at hlow
  exact mul_le_mul_of_nonneg_left hlow (by linarith)

/-- Without room there is only one activity. -/
theorem cheapest_of_no_room (h : c.InRow d a lo) (hroom : ¬c.low < c.high) (price gain : ℚ) :
    c.Cheapest price gain (lo c.var) := by
  intro y hy
  have hlow := hy.1
  rw [h.low, Exact.ofRat_le] at hlow
  have hvalid := Exact.valid_of_le h.le
  have hhigh := Exact.le_trans hy.2 (Exact.le_of_not_lt hvalid.2 hvalid.1 hroom)
  rw [h.low, Exact.ofRat_le] at hhigh
  rw [le_antisymm hlow hhigh]

end Column.InRow

theorem Column.cheapest_high {hi price gain : ℚ} (hhi : c.high = .ofRat hi) (hle : price ≤ gain) :
    c.Cheapest price gain hi := by
  intro y hy
  have hhigh := hy.2
  rw [hhi, Exact.ofRat_le] at hhigh
  exact mul_le_mul_of_nonpos_left hhigh (by linarith)

theorem Column.cheapest_of_price_eq (gain y : ℚ) : c.Cheapest gain gain y := by
  intro y' _
  rw [sub_self, zero_mul, zero_mul]

end

/-! ## The greedy fill -/

section

variable {d a lo : Nat → ℚ}

/-- Activities `y` that a fill of columns with a slack comes to, with the slack that is left and the
price that certifies them. -/
structure Filled (d a lo : Nat → ℚ) (slack : ℚ) (cols : List (Column Exact)) (y : Nat → ℚ)
    (rest price : ℚ) : Prop where
  rest_nonneg : 0 ≤ rest
  price_nonneg : 0 ≤ price
  tight : price = 0 ∨ rest = 0
  price_mem : price = 0 ∨ ∃ c ∈ cols, price = -d c.var / a c.var
  placed : ∀ cl ∈ fill (.ofRat slack) cols, cl.1 ∈ cols ∧
    cl.1.activity cl.2 = .ofRat (y cl.1.var)
  unplaced : ∀ j, (∀ cl ∈ fill (.ofRat slack) cols, cl.1.var ≠ j) → y j = lo j
  within : ∀ c ∈ cols, c.Within (y c.var)
  cheapest : ∀ c ∈ cols, c.Cheapest price (-d c.var / a c.var) (y c.var)
  total : (cols.map fun c => y c.var - lo c.var).sum + rest = slack

theorem sum_map_sub_self {α : Type} (cols : List (Column α)) :
    (cols.map fun c => lo c.var - lo c.var).sum = 0 := by
  rw [List.sum_eq_zero]
  intro q hq
  obtain ⟨c, -, rfl⟩ := List.mem_map.mp hq
  exact sub_self _

/-- Values that are moved at the head of a list of different variables stay what they are in its
rest. -/
theorem update_of_mem_tail {α : Type} {c e : Column α} {rest : List (Column α)} (y : Nat → ℚ) (v : ℚ)
    (hnodup : ((c :: rest).map Column.var).Nodup) (he : e ∈ rest) :
    Function.update y c.var v e.var = y e.var := by
  rw [List.map_cons, List.nodup_cons] at hnodup
  refine Function.update_of_ne (fun hev => hnodup.1 ?_) _ _
  rw [← hev]
  exact List.mem_map_of_mem he

section

variable {α : Type} {c : Column α} {rest : List (Column α)} {v : ℚ} (y : Nat → ℚ)
  (hnodup : ((c :: rest).map Column.var).Nodup)

include hnodup

/-- What holds of the value at the head and of the old values in the rest holds of all columns. -/
theorem forall_update_cons {P : Column α → ℚ → Prop} (hhead : P c v)
    (htail : ∀ e ∈ rest, P e (y e.var)) :
    ∀ e ∈ c :: rest, P e (Function.update y c.var v e.var) := by
  intro e he
  rcases List.mem_cons.mp he with rfl | he
  · rw [Function.update_self]
    exact hhead
  · rw [update_of_mem_tail y v hnodup he]
    exact htail e he

theorem sum_update_cons :
    ((c :: rest).map fun e => Function.update y c.var v e.var - lo e.var).sum =
      (v - lo c.var) + (rest.map fun e => y e.var - lo e.var).sum := by
  have htail : (rest.map fun e => Function.update y c.var v e.var - lo e.var) =
      rest.map fun e => y e.var - lo e.var :=
    List.map_congr_left fun e he => by rw [update_of_mem_tail y v hnodup he]
  rw [List.map_cons, List.sum_cons, htail, Function.update_self]

end

theorem filled_nil {slack : ℚ} (hs : 0 ≤ slack) : Filled d a lo slack [] lo slack 0 where
  rest_nonneg := hs
  price_nonneg := le_rfl
  tight := Or.inl rfl
  price_mem := Or.inl rfl
  placed cl hcl := nomatch hcl
  unplaced _ _ := rfl
  within c hc := nomatch hc
  cheapest c hc := nomatch hc
  total := by simp

variable {c : Column Exact} {rest : List (Column Exact)}

/-- Without slack nothing is raised. -/
theorem filled_of_no_slack (hrow : ∀ e ∈ c :: rest, e.InRow d a lo)
    (hsorted : ∀ e ∈ rest, -d e.var / a e.var ≤ -d c.var / a c.var)
    (hgain : 0 ≤ -d c.var / a c.var) :
    Filled d a lo 0 (c :: rest) lo 0 (-d c.var / a c.var) := by
  have hfill : fill (.ofRat 0) (c :: rest) = [] := by
    unfold fill
    rw [if_pos (by simp)]
  have hle : ∀ e ∈ c :: rest, -d e.var / a e.var ≤ -d c.var / a c.var := by
    intro e he
    rcases List.mem_cons.mp he with rfl | he
    · exact le_rfl
    · exact hsorted e he
  refine ⟨le_rfl, hgain, Or.inr rfl, Or.inr ⟨c, List.mem_cons_self, rfl⟩, ?_, fun _ _ => rfl,
    fun e he => (hrow e he).within_low, fun e he => (hrow e he).cheapest_low (hle e he), ?_⟩
  · rw [hfill]
    exact fun cl hcl => nomatch hcl
  · rw [sum_map_sub_self, add_zero]

/-- The last variable that is raised takes all that is left of the slack. -/
theorem filled_of_lt_room {slack : ℚ} (hs : 0 < slack) (hrow : ∀ e ∈ c :: rest, e.InRow d a lo)
    (hnodup : ((c :: rest).map Column.var).Nodup)
    (hsorted : ∀ e ∈ rest, -d e.var / a e.var ≤ -d c.var / a c.var)
    (hgain : 0 ≤ -d c.var / a c.var) (hroom : ¬c.high - c.low ≤ .ofRat slack) :
    Filled d a lo slack (c :: rest) (Function.update lo c.var (lo c.var + slack)) 0
      (-d c.var / a c.var) := by
  have hc := hrow c List.mem_cons_self
  have hfill : fill (.ofRat slack) (c :: rest) = [(c, .at (.ofRat (lo c.var + slack)))] := by
    unfold fill
    rw [if_neg (by simpa using hs)]
    dsimp only
    rw [if_neg hroom, hc.low, Exact.ofRat_add]
  refine ⟨le_rfl, hgain, Or.inr rfl, Or.inr ⟨c, List.mem_cons_self, rfl⟩, ?_, ?_, ?_, ?_, ?_⟩
  · rw [hfill]
    intro cl hcl
    rw [List.mem_singleton] at hcl
    rw [hcl, Function.update_self]
    exact ⟨List.mem_cons_self, rfl⟩
  · rw [hfill]
    intro j hj
    exact Function.update_of_ne (fun hjc => hj _ List.mem_cons_self hjc.symm) _ _
  · exact forall_update_cons (P := fun e => e.Within) lo hnodup (hc.within_of_no_room hs.le hroom)
      fun e he => (hrow e (List.mem_cons_of_mem c he)).within_low
  · exact forall_update_cons (P := fun e => e.Cheapest _ (-d e.var / a e.var)) lo hnodup
      (Column.cheapest_of_price_eq _ _)
      fun e he => (hrow e (List.mem_cons_of_mem c he)).cheapest_low (hsorted e he)
  · rw [sum_update_cons lo hnodup, sum_map_sub_self]
    ring

/-- A variable whose room fits into the slack is raised all the way. -/
theorem filled_cons {slack hi restSlack price : ℚ} {y : Nat → ℚ} (hs : 0 < slack)
    (hrow : ∀ e ∈ c :: rest, e.InRow d a lo) (hnodup : ((c :: rest).map Column.var).Nodup)
    (hsorted : ∀ e ∈ rest, -d e.var / a e.var ≤ -d c.var / a c.var)
    (hgain : 0 ≤ -d c.var / a c.var) (hhi : c.high = .ofRat hi)
    (hroom : hi - lo c.var ≤ slack)
    (h : Filled d a lo (slack - (hi - lo c.var)) rest y restSlack price) :
    Filled d a lo slack (c :: rest) (Function.update y c.var hi) restSlack price := by
  have hc := hrow c List.mem_cons_self
  have hfill : fill (.ofRat slack) (c :: rest) =
      (c, .high) :: fill (.ofRat (slack - (hi - lo c.var))) rest := by
    rw [fill, if_neg (by simpa using hs)]
    dsimp only
    rw [if_pos (hc.room_le_iff.mpr ⟨hi, hhi, hroom⟩), hhi, hc.low, Exact.ofRat_sub,
      Exact.ofRat_sub]
  -- the price is the gain of a column further down the list
  have hprice : price ≤ -d c.var / a c.var := by
    rcases h.price_mem with hzero | ⟨e, he, heq⟩
    · rw [hzero]
      exact hgain
    · rw [heq]
      exact hsorted e he
  refine ⟨h.rest_nonneg, h.price_nonneg, h.tight, ?_, ?_, ?_, ?_, ?_, ?_⟩
  · rcases h.price_mem with hzero | ⟨e, he, heq⟩
    · exact Or.inl hzero
    · exact Or.inr ⟨e, List.mem_cons_of_mem c he, heq⟩
  · rw [hfill]
    intro cl hcl
    rcases List.mem_cons.mp hcl with rfl | hcl
    · rw [Function.update_self]
      exact ⟨List.mem_cons_self, hhi⟩
    · obtain ⟨hmem, hact⟩ := h.placed cl hcl
      rw [update_of_mem_tail y _ hnodup hmem]
      exact ⟨List.mem_cons_of_mem c hmem, hact⟩
  · rw [hfill]
    intro j hj
    rw [Function.update_of_ne (fun hjc => hj _ List.mem_cons_self hjc.symm)]
    exact h.unplaced j fun cl hcl => hj cl (List.mem_cons_of_mem _ hcl)
  · exact forall_update_cons (P := fun e => e.Within) y hnodup (hc.within_high hhi) h.within
  · exact forall_update_cons (P := fun e => e.Cheapest price (-d e.var / a e.var)) y hnodup
      (Column.cheapest_high hhi hprice) h.cheapest
  · rw [sum_update_cons y hnodup]
    linarith [h.total]

/-- A fill of columns in the order of their gains comes to activities that a price certifies. -/
theorem exists_filled {cols : List (Column Exact)} (hrow : ∀ c ∈ cols, c.InRow d a lo)
    (hnodup : (cols.map Column.var).Nodup)
    (hsorted : cols.Pairwise fun c e => -d e.var / a e.var ≤ -d c.var / a c.var)
    (hgain : ∀ c ∈ cols, 0 ≤ -d c.var / a c.var) {slack : ℚ} (hs : 0 ≤ slack) :
    ∃ y rest price, Filled d a lo slack cols y rest price := by
  induction cols generalizing slack with
  | nil => exact ⟨lo, slack, 0, filled_nil hs⟩
  | cons c rest ih =>
    obtain ⟨hhead, htail⟩ := List.pairwise_cons.mp hsorted
    have hgainc := hgain c List.mem_cons_self
    rcases hs.eq_or_lt with rfl | hpos
    · exact ⟨lo, 0, _, filled_of_no_slack hrow hhead hgainc⟩
    · by_cases hroom : c.high - c.low ≤ .ofRat slack
      · obtain ⟨hi, hhi, hle⟩ := ((hrow c List.mem_cons_self).room_le_iff).mp hroom
        have hnodup' : (rest.map Column.var).Nodup := (List.nodup_cons.mp hnodup).2
        obtain ⟨y, r, price, h⟩ := ih (fun e he => hrow e (List.mem_cons_of_mem c he)) hnodup'
          htail (fun e he => hgain e (List.mem_cons_of_mem c he)) (sub_nonneg.mpr hle)
        exact ⟨_, r, price, filled_cons hpos hrow hnodup hhead hgainc hhi hle h⟩
      · exact ⟨_, 0, _, filled_of_lt_room hpos hrow hnodup hhead hgainc hroom⟩

end

end BranchBound.OneRow
