import BranchBound.Proofs.OneRow.Duality

/-!
# Reading by index

The relaxation of a program with one row puts the numbers of a variable side by side once and hands
them on, so its definition has no index that could be wrong. Here every number is read where it is
kept, and each read is checked: the cuts of a node by position, the costs, the row and the bounds by
variable, and the coordinates of the point that is written (`answerIndexed`).

For every node over a well-formed program each read finds its entry, and the answer is that of
`answer` (`answerIndexed_eq`). The order in which variables are raised puts any two of them in order
(`Column.before_total`), so sorting them cannot break down either.
-/

namespace BranchBound

variable {α : Type}

theorem change_eq_set {β : Type} {xs : Array β} {i : Nat} (h : i < xs.size) (v : β) :
    change (α := α) xs i (fun _ => v) = .ok (xs.setIfInBounds i v) :=
  change_eq_ok_iff.mpr ⟨xs[i], Array.getElem?_eq_getElem h, rfl⟩

variable [Scalar α]

/-! ## Nodes -/

namespace Node

/-- The bounded variables with their bounds, which are read by position. -/
def overridesIndexed (node : Node α) : Except (Error α) (List (Nat × Cut)) := do
  let cuts ← node.vars.toList.zipIdx.mapM fun (var, position) => do
    let c ← entry node.cuts position
    return (var, c)
  return cuts.filter fun (_, c) => !c.isFree

/-- Lays the bounds of a node over bounds of all variables. -/
def tightenIndexed (node : Node α) (lower upper : Array α) :
    Except (Error α) (Array α × Array α) := do
  let cuts ← node.overridesIndexed
  cuts.foldlM (fun bounds (var, c) => tightenAt bounds var c) (lower, upper)

omit [Scalar α] in
theorem overridesIndexed_eq {node : Node α} (h : node.cuts.size = node.vars.size) :
    node.overridesIndexed = .ok node.overrides := by
  have hreads := mapM_eq_ok (l := node.vars.toList.zipIdx)
    (f := fun vp => (do let c ← entry (α := α) node.cuts vp.2; return (vp.1, c)))
    (g := fun vp => (vp.1, node.cuts.getD vp.2 .free)) fun vp hvp => by
      have hlt : vp.2 < node.cuts.size := by
        rw [h, ← Array.length_toList]
        exact List.snd_lt_of_mem_zipIdx hvp
      rw [entry_eq_ok_iff.mpr (Array.getElem?_eq_getElem hlt), Array.getD, dif_pos hlt]
      rfl
  have hzip : node.vars.toList.zipIdx.map (fun vp => (vp.1, node.cuts.getD vp.2 .free)) =
      node.vars.toList.zip node.cuts.toList := by
    refine List.ext_getElem (by simp [h]) fun i hi hi' => ?_
    rw [List.length_zip, lt_min_iff, Array.length_toList, Array.length_toList] at hi'
    simp [Array.getD, hi'.2]
  unfold overridesIndexed overrides
  rw [← hzip]
  exact congrArg (· >>= _) hreads

theorem tightenIndexed_eq {node : Node α} (h : node.cuts.size = node.vars.size)
    (lower upper : Array α) : node.tightenIndexed lower upper = node.tighten lower upper := by
  unfold tightenIndexed
  rw [overridesIndexed_eq h]
  rfl

end Node

namespace OneRow

/-! ## Boxes -/

/-- The coefficient of a variable in the row; zero without a row. -/
def coefIndexed (r : OneRow α) (var : Nat) : Except (Error α) α :=
  match r.row? with
  | some row => entry row.coefs var
  | none => .ok 0.0

/-- The variables over a box, each with the numbers that are read at its index. -/
def columnsIndexed (r : OneRow α) (lower upper : Array α) : Except (Error α) (List (Column α)) :=
  (List.range r.costs.size).mapM fun var => do
    let cost ← entry r.costs var
    let l ← entry lower var
    let u ← entry upper var
    let coef ← r.coefIndexed var
    return ⟨var, cost, coef, l, u⟩

/-- Writes the values of variables at given levels into a point. Their bounds are read once more. -/
def writeIndexed (lower upper x : Array α) (levels : List (Column α × Level α)) :
    Except (Error α) (Array α) :=
  levels.foldlM (fun x (c, level) => do
    let l ← entry lower c.var
    let u ← entry upper c.var
    change x c.var fun _ => { c with lower := l, upper := u }.value level) x

/-- Places the variables of a row when one of them sets the price. -/
def solvePricedIndexed (lower upper : Array α) (rhs : α) (pivot : Column α)
    (cols : List (Column α)) (x : Array α) : Except (Error α) (Placement α) :=
  if pivot.gain < floorPrice cols then .ok .unbounded
  else
    let others := (cols.filter fun c => c.var != pivot.var).map fun c => (c, c.priced pivot.gain)
    let slack := rhs - rowActivity others
    let raised := if pivot.high ≤ slack then
        fill (slack - pivot.high) (risers others) ++ [(pivot, .high)]
      else [(pivot, .at slack)]
    (writeIndexed lower upper x (others ++ raised)).map .ofPoint

/-- Places the variables of a row when the activity of each has a lowest value. -/
def solveBoundedIndexed (lower upper : Array α) (rhs : α) (cols : List (Column α))
    (x : Array α) : Except (Error α) (Placement α) :=
  let levels := cols.map fun c => (c, Level.low)
  let slack := rhs - rowActivity levels
  if slack < -boundTolerance * (1.0 + Scalar.abs rhs) then .ok .infeasible
  else
    let raised := fill (Scalar.maxNum slack 0.0) (risers levels)
    (writeIndexed lower upper x (levels ++ raised)).map .ofPoint

/-- Solves over a box. -/
def solveBoxIndexed (r : OneRow α) (lower upper : Array α) : Except (Error α) (Placement α) := do
  let cols ← r.columnsIndexed lower upper
  let free := cols.filter fun c => c.coef == 0.0
  let bound := cols.filter fun c => !(c.coef == 0.0)
  if free.any fun c => !Scalar.isFinite c.resting then return .unbounded
  let x ← free.foldlM (fun x c => change x c.var fun _ => c.resting)
    (Array.replicate r.costs.size 0.0)
  match r.row? with
  | none => return .solved x
  | some row =>
    match pivot? bound with
    | some pivot => solvePricedIndexed lower upper row.rhs pivot bound x
    | none => solveBoundedIndexed lower upper row.rhs bound x

/-- The answer for a node. -/
def answerIndexed (r : OneRow α) (node : Node α) (cutoff : Option (Cutoff α)) :
    Except (Error α) (Answer α) := do
  let (lower, upper) ← node.tightenIndexed r.program.lower r.program.upper
  if (lower.zip upper).any fun (l, u) => decide (u + boundTolerance < l) then return .infeasible
  match ← r.solveBoxIndexed lower upper with
  | .unbounded => return .failed
  | .infeasible => return .infeasible
  | .solved x =>
    let objective := r.program.objective x
    if cutoff.any (·.excludes objective) then return .infeasible
    return .optimal x objective

/-! ## Every read finds its entry -/

/-- One number for each of `n` variables, in the costs and in the row. -/
structure Sized (r : OneRow α) (n : Nat) : Prop where
  costs : r.costs.size = n
  row : ∀ row, r.row? = some row → row.coefs.size = n

theorem sized_of_ofProgram {p : Program α} {r : OneRow α} (hp : p.WellFormed)
    (h : ofProgram p = .ok r) : r.Sized p.size := by
  refine ⟨size_costs h, fun row hrow => ?_⟩
  unfold row? at hrow
  rw [(ofProgram_eq_ok h).2.1] at hrow
  exact hp.size_row row (Array.mem_of_getElem? hrow)

variable {r : OneRow α} {n : Nat} {lower upper : Array α}

omit [Scalar α] in
theorem entry_tabulate {β : Type} (f : Nat → β) {j : Nat} (h : j < n) :
    entry (α := α) (tabulate n f) j = .ok (f j) :=
  entry_eq_ok_iff.mpr (getElem?_tabulate_of_lt f h)

/-- Every variable has a column, with its coefficient in the row, or zero without one. -/
theorem exists_columnsOver (h : r.Sized n) (l u : Nat → α) : ∃ d a : Nat → α,
    r.columnsOver (tabulate n l) (tabulate n u) =
      (List.range n).map (fun j => ⟨j, d j, a j, l j, u j⟩) ∧
    r.costs = tabulate n d ∧ (∀ row, r.row? = some row → row.coefs = tabulate n a) ∧
    (r.row? = none → ∀ j, a j = 0.0) := by
  obtain ⟨d, hd⟩ := exists_eq_tabulate h.costs 0.0
  unfold columnsOver
  cases hrow : r.row? with
  | none =>
    have hzeros : Array.replicate r.costs.size (0.0 : α) = tabulate n fun _ => 0.0 :=
      eq_tabulate (by simp [h.costs]) fun j hj => by simp [h.costs, hj]
    refine ⟨d, fun _ => 0.0, ?_, hd, fun row hsome => absurd hsome (by simp), fun _ _ => rfl⟩
    dsimp only
    rw [hzeros, hd]
    exact columns_tabulate d _ l u
  | some row =>
    obtain ⟨a, ha⟩ := exists_eq_tabulate (h.row row hrow) 0.0
    refine ⟨d, a, ?_, hd, fun row' hsome => ?_, fun hnone => absurd hnone (by simp)⟩
    · dsimp only
      rw [ha, hd]
      exact columns_tabulate d a l u
    · rw [← Option.some.inj hsome, ha]

/-- Every variable is read, and its column is the one that the vectors give. -/
theorem exists_columnsIndexed (h : r.Sized n) (l u : Nat → α) : ∃ d a : Nat → α,
    r.columnsOver (tabulate n l) (tabulate n u) =
      (List.range n).map (fun j => ⟨j, d j, a j, l j, u j⟩) ∧
    r.columnsIndexed (tabulate n l) (tabulate n u) =
      .ok ((List.range n).map fun j => ⟨j, d j, a j, l j, u j⟩) := by
  obtain ⟨d, a, hcolumns, hd, hcoefs, hzero⟩ := exists_columnsOver h l u
  have hreads : ∀ j < n, r.coefIndexed j = .ok (a j) := by
    intro j hj
    unfold coefIndexed
    cases hrow : r.row? with
    | none => exact congrArg Except.ok (hzero hrow j).symm
    | some row =>
      dsimp only
      rw [hcoefs row hrow, entry_tabulate a hj]
  refine ⟨d, a, hcolumns, ?_⟩
  unfold columnsIndexed
  rw [h.costs]
  refine mapM_eq_ok fun j hj => ?_
  have hlt := List.mem_range.mp hj
  rw [hreads j hlt, hd, entry_tabulate d hlt, entry_tabulate l hlt, entry_tabulate u hlt]
  rfl

/-- A column has the bounds that are kept at its index. -/
structure Column.Kept (lower upper : Array α) (c : Column α) : Prop where
  lower : lower[c.var]? = some c.lower
  upper : upper[c.var]? = some c.upper

/-- Columns that are kept are written at indices of the point. -/
theorem writeIndexed_eq (hlower : lower.size = n) {levels : List (Column α × Level α)}
    (hkept : ∀ cl ∈ levels, cl.1.Kept lower upper) {x : Array α} (hx : x.size = n) :
    writeIndexed lower upper x levels = .ok (write x levels) := by
  refine (foldlM_eq_ok (P := fun x : Array α => x.size = n) (fun x hx cl hcl => ?_) hx).1
  obtain ⟨c, level⟩ := cl
  obtain ⟨hl, hu⟩ := hkept _ hcl
  have hlt : c.var < x.size := by
    rw [hx, ← hlower]
    exact (Array.getElem?_eq_some_iff.mp hl).1
  refine ⟨?_, by rw [Array.size_setIfInBounds, hx]⟩
  dsimp only at hl hu ⊢
  rw [entry_eq_ok_iff.mpr hl, entry_eq_ok_iff.mpr hu]
  exact change_eq_set hlt _

/-- What is raised was kept before. -/
theorem kept_of_mem_fill {levels : List (Column α × Level α)}
    (hkept : ∀ cl ∈ levels, cl.1.Kept lower upper) {slack : α} :
    ∀ cl ∈ fill slack (risers levels), cl.1.Kept lower upper := by
  intro cl hcl
  obtain ⟨level, hmem, -⟩ := mem_risers.mp (mem_fill hcl).1
  exact hkept (cl.1, level) hmem

variable {cols : List (Column α)} {x : Array α}

omit [Scalar α] in
theorem kept_of_mem_map {f : Column α → Level α} (hcols : ∀ c ∈ cols, c.Kept lower upper) :
    ∀ cl ∈ cols.map fun c => (c, f c), cl.1.Kept lower upper := by
  intro cl hcl
  obtain ⟨c, hc, rfl⟩ := List.mem_map.mp hcl
  exact hcols c hc

theorem solvePricedIndexed_eq (hlower : lower.size = n) (hx : x.size = n)
    (hcols : ∀ c ∈ cols, c.Kept lower upper) {pivot : Column α} (hpivot : pivot.Kept lower upper)
    (rhs : α) :
    solvePricedIndexed lower upper rhs pivot cols x = .ok (solvePriced rhs pivot cols x) := by
  have hfilter : ∀ c ∈ cols.filter fun c => c.var != pivot.var, c.Kept lower upper :=
    fun c hc => hcols c (List.mem_filter.mp hc).1
  have hothers := kept_of_mem_map (f := fun c => c.priced pivot.gain) hfilter
  have hlast (level : Level α) : ∀ cl ∈ [(pivot, level)], cl.1.Kept lower upper :=
    List.forall_mem_singleton.mpr hpivot
  unfold solvePricedIndexed solvePriced
  dsimp only
  split
  · rfl
  · split
    · rw [writeIndexed_eq hlower (List.forall_mem_append.mpr ⟨hothers, List.forall_mem_append.mpr
        ⟨kept_of_mem_fill hothers, hlast _⟩⟩) hx, List.append_assoc]
      rfl
    · rw [writeIndexed_eq hlower (List.forall_mem_append.mpr ⟨hothers, hlast _⟩) hx]
      rfl

theorem solveBoundedIndexed_eq (hlower : lower.size = n) (hx : x.size = n)
    (hcols : ∀ c ∈ cols, c.Kept lower upper) (rhs : α) :
    solveBoundedIndexed lower upper rhs cols x = .ok (solveBounded rhs cols x) := by
  have hlevels := kept_of_mem_map (f := fun _ => .low) hcols
  unfold solveBoundedIndexed solveBounded
  dsimp only
  split
  · rfl
  · rw [writeIndexed_eq hlower
      (List.forall_mem_append.mpr ⟨hlevels, kept_of_mem_fill hlevels⟩) hx]
    rfl

theorem solveBoxIndexed_eq (h : r.Sized n) (hlower : lower.size = n) (hupper : upper.size = n) :
    r.solveBoxIndexed lower upper = .ok (r.solveBox lower upper) := by
  obtain ⟨l, rfl⟩ := exists_eq_tabulate hlower 0.0
  obtain ⟨u, rfl⟩ := exists_eq_tabulate hupper 0.0
  obtain ⟨d, a, hcolumns, hindexed⟩ := exists_columnsIndexed h l u
  have hkept : ∀ c ∈ r.columnsOver (tabulate n l) (tabulate n u),
      c.Kept (tabulate n l) (tabulate n u) := by
    intro c hc
    rw [hcolumns] at hc
    obtain ⟨j, hj, rfl⟩ := List.mem_map.mp hc
    have hlt := List.mem_range.mp hj
    exact ⟨getElem?_tabulate_of_lt l hlt, getElem?_tabulate_of_lt u hlt⟩
  rw [← hcolumns] at hindexed
  unfold solveBoxIndexed solveBox
  rw [hindexed]
  generalize r.columnsOver (tabulate n l) (tabulate n u) = cols at hkept
  have hlt : ∀ c ∈ cols, c.var < n := fun c hc => by
    rw [← size_tabulate (n := n) l]
    exact (Array.getElem?_eq_some_iff.mp (hkept c hc).lower).1
  obtain ⟨hfree, hsize⟩ := foldlM_eq_ok (P := fun x : Array α => x.size = n)
    (f := fun x c => change (α := α) x c.var fun _ => c.resting)
    (g := fun x c => x.setIfInBounds c.var c.resting) (l := cols.filter fun c => c.coef == 0.0)
    (s := Array.replicate r.costs.size 0.0) (fun x hx c hc =>
      ⟨change_eq_set (by rw [hx]; exact hlt c (List.mem_filter.mp hc).1) _, by simp [hx]⟩)
    (by simp [h.costs])
  have hbound : ∀ c ∈ cols.filter fun c => !(c.coef == 0.0),
      c.Kept (tabulate n l) (tabulate n u) := fun c hc => hkept c (List.mem_filter.mp hc).1
  dsimp only [bind, Except.bind, pure, Except.pure]
  split
  · rfl
  · rw [hfree]
    dsimp only
    cases r.row? with
    | none => rfl
    | some row =>
      dsimp only
      unfold solveRow
      rcases pivot?_cases (cols.filter fun c => !(c.coef == 0.0)) with
        ⟨pivot, hpivot, hmem, -⟩ | ⟨hpivot, -⟩
      · rw [hpivot]
        exact solvePricedIndexed_eq hlower hsize hbound (hbound pivot hmem) row.rhs
      · rw [hpivot]
        exact solveBoundedIndexed_eq hlower hsize hbound row.rhs

theorem answerIndexed_eq {p : Program α} (hp : p.WellFormed) (hr : ofProgram p = .ok r)
    {node : Node α} (hover : node.IsOver p.problem) (cutoff : Option (Cutoff α)) :
    r.answerIndexed node cutoff = r.answer node cutoff := by
  obtain ⟨lower, upper, htighten, hlower, hupper⟩ := tighten_ok hp hover
  rw [← (ofProgram_eq_ok hr).2.1] at htighten
  rw [answer_of_tighten htighten]
  unfold answerIndexed
  rw [Node.tightenIndexed_eq (hover.2.trans (congrArg Array.size hover.1).symm), htighten]
  dsimp only [bind, Except.bind, pure, Except.pure]
  split
  · rfl
  · have hsolve := solveBoxIndexed_eq (sized_of_ofProgram hp hr) hlower hupper
    cases hsolved : r.solveBox lower upper with
    | unbounded | infeasible | solved x => simp only [hsolve, hsolved]

/-! ## The order of raising -/

section

variable {c d e : Column α}

theorem Column.before_iff (c d : Column α) : c.before d = true ↔
    d.gain < c.gain ∨ ¬c.gain < d.gain ∧ c.var ≤ d.var := by
  unfold before
  split
  · rename_i hlt
    exact iff_of_true rfl (Or.inl hlt)
  · rename_i hnot
    split
    · rename_i hgt
      exact iff_of_false Bool.false_ne_true fun h => h.elim hnot fun h => h.1 hgt
    · rename_i hge
      rw [decide_eq_true_iff]
      exact ⟨fun h => Or.inr ⟨hge, h⟩, fun h => h.elim (absurd · hnot) And.right⟩

/-- Any two variables are in order. -/
theorem Column.before_total (c d : Column α) : c.before d = true ∨ d.before c = true := by
  rw [before_iff, before_iff]
  by_cases hlt : d.gain < c.gain
  · exact Or.inl (Or.inl hlt)
  · by_cases hgt : c.gain < d.gain
    · exact Or.inr (Or.inl hgt)
    · rcases le_total c.var d.var with hle | hle
      · exact Or.inl (Or.inr ⟨hgt, hle⟩)
      · exact Or.inr (Or.inr ⟨hlt, hle⟩)

variable [Lawful α]

theorem Column.before_iff_value (c d : Column α) : c.before d = true ↔
    Lawful.value d.gain < Lawful.value c.gain ∨
      ¬Lawful.value c.gain < Lawful.value d.gain ∧ c.var ≤ d.var := by
  rw [before_iff, Lawful.lt_iff d.gain, Lawful.lt_iff c.gain]

/-- The order is transitive where no gain is invalid. -/
theorem Column.before_trans (hc : Lawful.value c.gain ≠ .nan) (hd : Lawful.value d.gain ≠ .nan)
    (he : Lawful.value e.gain ≠ .nan) (hcd : c.before d = true) (hde : d.before e = true) :
    c.before e = true := by
  rw [before_iff_value] at hcd hde ⊢
  rcases hcd with hcd | ⟨hcd, hvar⟩ <;> rcases hde with hde | ⟨hde, hvar'⟩
  · exact Or.inl (Exact.lt_of_lt_of_le hde (Exact.le_of_lt hcd))
  · exact Or.inl (Exact.lt_of_le_of_lt (Exact.le_of_not_lt he hd hde) hcd)
  · exact Or.inl (Exact.lt_of_lt_of_le hde (Exact.le_of_not_lt hd hc hcd))
  · have hle := Exact.le_trans (Exact.le_of_not_lt he hd hde) (Exact.le_of_not_lt hd hc hcd)
    exact Or.inr ⟨Exact.not_lt_of_le hle, hvar.trans hvar'⟩

/-- What is raised gains something. -/
theorem valid_gain_of_mem_risers {levels : List (Column α × Level α)} (h : c ∈ risers levels) :
    Lawful.value c.gain ≠ .nan := by
  obtain ⟨level, -, hrise⟩ := mem_risers.mp h
  intro hnan
  cases level with
  | low =>
    have hgain := of_decide_eq_true (Bool.and_eq_true_iff.mp hrise).1
    rw [Lawful.lt_iff, hnan] at hgain
    exact Exact.not_lt_nan _ hgain
  | high | «at» => cases hrise

end

end OneRow

end BranchBound
