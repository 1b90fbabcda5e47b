import BranchBound.Program
import BranchBound.Proofs.Results

/-!
# Built programs

What every program has that was built step by step: bounds and rows of the right length, finite
rows, and whole variables that it knows, in ascending order (`Program.WellFormed`). A step that is
not refused keeps this, and the costs and the sense with it (`Program.of_build`).
-/

namespace BranchBound

variable {α : Type} [Scalar α]

namespace Program

/-- A program with one bound on each side and one entry of each row for every variable; its rows are
finite, and its whole variables are in ascending order. -/
structure WellFormed (p : Program α) : Prop where
  size_lower : p.lower.size = p.size
  size_upper : p.upper.size = p.size
  ascending : p.integers.toList.Pairwise (· < ·)
  known : ∀ var ∈ p.integers, var < p.size
  size_row : ∀ row ∈ p.rows, row.coefs.size = p.size
  finite_row : ∀ row ∈ p.rows, (∀ v ∈ row.coefs, Scalar.isFinite v = true) ∧
    Scalar.isFinite row.rhs = true

theorem wellFormed_ofCosts (sense : Sense) (costs : Array α) :
    (ofCosts sense costs).WellFormed where
  size_lower := Array.size_replicate
  size_upper := Array.size_replicate
  ascending := List.Pairwise.nil
  known _ hvar := absurd hvar (Array.not_mem_empty _)
  size_row _ hrow := absurd hrow (Array.not_mem_empty _)
  finite_row _ hrow := absurd hrow (Array.not_mem_empty _)

variable {p q : Program α}

omit [Scalar α] in
theorem of_checkVariable {var : Nat} (h : p.checkVariable var = .ok ()) : var < p.size := by
  unfold checkVariable at h
  split at h
  · assumption
  · cases h

omit [Scalar α] in
theorem checkVariable_ok {var : Nat} (h : var < p.size) : p.checkVariable var = .ok () := if_pos h

/-! ## What a step does -/

theorem setBounds_ok {var : Nat} {lower upper : α} (hvar : var < p.size)
    (hvalid : Scalar.isNaN lower = false ∧ Scalar.isNaN upper = false) :
    p.setBounds var lower upper = .ok { p with
      lower := p.lower.setIfInBounds var lower
      upper := p.upper.setIfInBounds var upper } := by
  unfold setBounds
  rw [checkVariable_ok hvar, hvalid.1, hvalid.2]
  rfl

theorem setBounds_eq_ok {var : Nat} {lower upper : α} (h : p.setBounds var lower upper = .ok q) :
    var < p.size ∧ (Scalar.isNaN lower = false ∧ Scalar.isNaN upper = false) ∧ q = { p with
      lower := p.lower.setIfInBounds var lower
      upper := p.upper.setIfInBounds var upper } := by
  obtain ⟨_, hvar, h⟩ := bind_eq_ok.mp h
  split at h
  · cases h
  · rename_i hvalid
    rw [Bool.not_eq_true, Bool.or_eq_false_iff] at hvalid
    exact ⟨of_checkVariable hvar, hvalid, (Except.ok.inj h).symm⟩

theorem marks_of_setBounds {var : Nat} {lower upper : α} (h : p.setBounds var lower upper = .ok q) :
    q.integers = p.integers ∧ q.binaries = p.binaries := by
  obtain ⟨-, -, rfl⟩ := setBounds_eq_ok h
  exact ⟨rfl, rfl⟩

theorem marks_of_setAllBounds {lower upper : α} (h : p.setAllBounds lower upper = .ok q) :
    q.integers = p.integers ∧ q.binaries = p.binaries := by
  refine invariant_of_foldlM (P := fun r => r.integers = p.integers ∧ r.binaries = p.binaries)
    (fun hstep hr => ?_) h ⟨rfl, rfl⟩
  obtain ⟨hintegers, hbinaries⟩ := marks_of_setBounds hstep
  rwa [hintegers, hbinaries]

omit [Scalar α] in
theorem markInteger_ok {var : Nat} (hvar : var < p.size) :
    p.markInteger var = .ok { p with
      integers := (insertAscending var p.integers.toList).toArray } := by
  unfold markInteger
  rw [checkVariable_ok hvar]
  rfl

omit [Scalar α] in
theorem markInteger_eq_ok {var : Nat} (h : p.markInteger var = .ok q) :
    var < p.size ∧ q = { p with
      integers := (insertAscending var p.integers.toList).toArray } := by
  obtain ⟨_, hvar, h⟩ := bind_eq_ok.mp h
  exact ⟨of_checkVariable hvar, (Except.ok.inj h).symm⟩

theorem markBinary_ok {var : Nat} (hvar : var < p.size) :
    p.markBinary var = .ok { p with
      integers := (insertAscending var p.integers.toList).toArray
      binaries := (insertAscending var p.binaries.toList).toArray
      lower := p.lower.modify var (Scalar.maxNum · 0.0)
      upper := p.upper.modify var (Scalar.minNum · 1.0) } := by
  unfold markBinary
  rw [markInteger_ok hvar]
  rfl

theorem markBinary_eq_ok {var : Nat} (h : p.markBinary var = .ok q) :
    var < p.size ∧ q = { p with
      integers := (insertAscending var p.integers.toList).toArray
      binaries := (insertAscending var p.binaries.toList).toArray
      lower := p.lower.modify var (Scalar.maxNum · 0.0)
      upper := p.upper.modify var (Scalar.minNum · 1.0) } := by
  obtain ⟨r, hr, h⟩ := bind_eq_ok.mp h
  obtain ⟨hvar, rfl⟩ := markInteger_eq_ok hr
  exact ⟨hvar, (Except.ok.inj h).symm⟩

theorem addRow_ok {coefs : Array α} {rhs : α} (hsize : coefs.size = p.size)
    (hcoefs : ∀ v ∈ coefs, Scalar.isFinite v = true) (hrhs : Scalar.isFinite rhs = true) :
    p.addRow coefs rhs = .ok { p with rows := p.rows.push ⟨coefs, rhs⟩ } := by
  have hfinite : coefs.any (!Scalar.isFinite ·) = false := by
    rw [Array.any_eq_false']
    intro v hv
    simp [hcoefs v hv]
  unfold addRow
  rw [if_neg (Decidable.not_not.mpr hsize), hfinite, hrhs]
  rfl

theorem addRow_eq_ok {coefs : Array α} {rhs : α} (h : p.addRow coefs rhs = .ok q) :
    coefs.size = p.size ∧ (∀ v ∈ coefs, Scalar.isFinite v = true) ∧
      Scalar.isFinite rhs = true ∧ q = { p with rows := p.rows.push ⟨coefs, rhs⟩ } := by
  unfold addRow at h
  simp only [bind, Except.bind, pure, Except.pure, throw, throwThe, MonadExceptOf.throw] at h
  split at h
  · cases h
  · rename_i hsize
    split at h
    · cases h
    · rename_i hfinite
      rw [Bool.or_eq_true, not_or, Bool.not_eq_true, Array.any_eq_false', Bool.not_eq_true,
        Bool.not_eq_false'] at hfinite
      exact ⟨Decidable.not_not.mp hsize, fun v hv => by simpa using hfinite.1 v hv, hfinite.2,
        (Except.ok.inj h).symm⟩

/-! ## Steps -/

/-- A well-formed program with given costs and sense. -/
structure BuiltFrom (sense : Sense) (costs : Array α) (p : Program α) : Prop where
  wellFormed : p.WellFormed
  costs_eq : p.costs = costs
  sense_eq : p.sense = sense

variable {sense : Sense} {costs : Array α}

theorem builtFrom_ofCosts (sense : Sense) (costs : Array α) :
    (ofCosts sense costs).BuiltFrom sense costs :=
  ⟨wellFormed_ofCosts sense costs, rfl, rfl⟩

theorem BuiltFrom.size_eq (h : p.BuiltFrom sense costs) : p.size = costs.size :=
  congrArg Array.size h.costs_eq

theorem BuiltFrom.of_setBounds {var : Nat} {lower upper : α}
    (h : p.setBounds var lower upper = .ok q) (hp : p.BuiltFrom sense costs) :
    q.BuiltFrom sense costs := by
  obtain ⟨-, -, rfl⟩ := setBounds_eq_ok h
  obtain ⟨hw, hcosts, hsense⟩ := hp
  refine ⟨⟨?_, ?_, hw.ascending, hw.known, hw.size_row, hw.finite_row⟩, hcosts, hsense⟩
  · rw [Array.size_setIfInBounds]
    exact hw.size_lower
  · rw [Array.size_setIfInBounds]
    exact hw.size_upper

/-- A variable that the program knows joins the whole ones. -/
theorem WellFormed.insert_integer (hw : p.WellFormed) {var : Nat} (hvar : var < p.size) :
    (insertAscending var p.integers.toList).Pairwise (· < ·) ∧
      ∀ w ∈ (insertAscending var p.integers.toList).toArray, w < p.size := by
  refine ⟨pairwise_insertAscending var hw.ascending, fun w hmem => ?_⟩
  rw [List.mem_toArray, mem_insertAscending, Array.mem_toList_iff] at hmem
  rcases hmem with rfl | hmem
  · exact hvar
  · exact hw.known w hmem

theorem BuiltFrom.of_markInteger {var : Nat} (h : p.markInteger var = .ok q)
    (hp : p.BuiltFrom sense costs) : q.BuiltFrom sense costs := by
  obtain ⟨hvar, rfl⟩ := markInteger_eq_ok h
  obtain ⟨hw, hcosts, hsense⟩ := hp
  obtain ⟨hascending, hknown⟩ := hw.insert_integer hvar
  exact ⟨⟨hw.size_lower, hw.size_upper, hascending, hknown, hw.size_row, hw.finite_row⟩, hcosts,
    hsense⟩

theorem BuiltFrom.of_markBinary {var : Nat} (h : p.markBinary var = .ok q)
    (hp : p.BuiltFrom sense costs) : q.BuiltFrom sense costs := by
  obtain ⟨hvar, rfl⟩ := markBinary_eq_ok h
  obtain ⟨hw, hcosts, hsense⟩ := hp
  obtain ⟨hascending, hknown⟩ := hw.insert_integer hvar
  refine ⟨⟨?_, ?_, hascending, hknown, hw.size_row, hw.finite_row⟩, hcosts, hsense⟩
  · rw [Array.size_modify]
    exact hw.size_lower
  · rw [Array.size_modify]
    exact hw.size_upper

theorem BuiltFrom.of_addRow {coefs : Array α} {rhs : α} (h : p.addRow coefs rhs = .ok q)
    (hp : p.BuiltFrom sense costs) : q.BuiltFrom sense costs := by
  obtain ⟨hsize, hcoefs, hrhs, rfl⟩ := addRow_eq_ok h
  obtain ⟨hw, hcosts, hsense⟩ := hp
  refine ⟨⟨hw.size_lower, hw.size_upper, hw.ascending, hw.known, ?_, ?_⟩, hcosts, hsense⟩
  · intro row hrow
    rcases Array.mem_push.mp hrow with hrow | rfl
    · exact hw.size_row row hrow
    · exact hsize
  · intro row hrow
    rcases Array.mem_push.mp hrow with hrow | rfl
    · exact hw.finite_row row hrow
    · exact ⟨hcoefs, hrhs⟩

theorem BuiltFrom.of_apply {step : Step α} (h : step.apply p = .ok q)
    (hp : p.BuiltFrom sense costs) : q.BuiltFrom sense costs := by
  cases step with
  | constant value =>
    rw [← Except.ok.inj h]
    exact ⟨⟨hp.wellFormed.size_lower, hp.wellFormed.size_upper, hp.wellFormed.ascending,
      hp.wellFormed.known, hp.wellFormed.size_row, hp.wellFormed.finite_row⟩, hp.costs_eq,
      hp.sense_eq⟩
  | bounds var lower upper => exact hp.of_setBounds h
  | allBounds lower upper => exact invariant_of_foldlM (fun hstep hr => hr.of_setBounds hstep) h hp
  | integer var => exact hp.of_markInteger h
  | binary var => exact hp.of_markBinary h
  | allInteger => exact invariant_of_foldlM (fun hstep hr => hr.of_markInteger hstep) h hp
  | row coefs rhs => exact hp.of_addRow h

/-- Every built program is well-formed and has the costs and the sense it started out with. -/
theorem of_build {steps : List (Step α)} (h : build sense costs steps = .ok p) :
    p.BuiltFrom sense costs :=
  invariant_of_foldlM (fun hstep hr => hr.of_apply hstep) h (builtFrom_ofCosts sense costs)

end Program

end BranchBound
