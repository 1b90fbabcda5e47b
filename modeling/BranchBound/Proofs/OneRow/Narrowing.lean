import BranchBound.Proofs.Coherence
import BranchBound.Proofs.OneRow.Corners
import Mathlib.Logic.Relation

/-!
# Narrowing

What a branch does to the bounds of its node, in a search of a program with at most one row and
finite bounds, in exact arithmetic and along every schedule. A child replaces one bound of one cut
(`Node.RecutsAt`), and is not asked whether the new bound is any tighter. It is: the relaxation puts
every variable at its bounds or between them (`OneRow.point_of_answer`), so the whole number next to
a value that is not whole lies strictly inside them (`Node.NarrowsAt`).

There is one exception. Bounds that cross by no more than the tolerance of the relaxation are still
solved, and then the value of a variable may be beyond one of its bounds (`Node.CrossedAt`). If the
search counts values as fractional that are as near as that to a whole number, a child may get the
bound that its node has already, and the same box again (`branches_again_on_crossed_bounds`). With
an integrality tolerance of at least `1e-9` this cannot be, and the boxes along a path are strictly
inside each other (`Node.ShrinksTo`).
-/

namespace BranchBound

open Exact

/-! ## Children and boxes -/

/-- Whether a child has the cuts of its node but for one bound at one position. -/
def Node.RecutsAt {α : Type} (node kid : Node α) (i : Nat) : Prop :=
  kid.vars = node.vars ∧ ∃ c k, node.cuts[i]? = some c ∧
    (kid.cuts = node.cuts.setIfInBounds i { c with atMost := some k } ∨
      kid.cuts = node.cuts.setIfInBounds i { c with atLeast := some k })

/-- Along some schedule from a start a node is visited and has a child. -/
def Run.Branches {α : Type} [Scalar α] (search : Search α) (start : Run α) (node kid : Node α) :
    Prop :=
  ∃ r elapsed v, Reaches search start r ∧ node ∈ r.pending ∧
    visit search elapsed r.state node = .ok v ∧ kid ∈ v.outcome.children

namespace Node

/-- Whether the bounds of a child, laid over those of a program, are those of its node but for one
bound of one variable, which is strictly tighter. -/
def NarrowsAt (p : Program Exact) (node kid : Node Exact) (var : Nat) : Prop :=
  ∃ (l u : Nat → ℚ) (bound : ℚ),
    node.tighten p.lower p.upper = .ok (vector p.size l, vector p.size u) ∧
    (bound < u var ∧ kid.tighten p.lower p.upper =
        .ok (vector p.size l, vector p.size (Function.update u var bound)) ∨
      l var < bound ∧ kid.tighten p.lower p.upper =
        .ok (vector p.size (Function.update l var bound), vector p.size u))

/-- Whether the bounds of a variable, laid over those of a program, cross, but by no more than the
tolerance of the relaxation. -/
def CrossedAt (p : Program Exact) (node : Node Exact) (var : Nat) : Prop :=
  ∃ l u : Nat → ℚ, node.tighten p.lower p.upper = .ok (vector p.size l, vector p.size u) ∧
    u var < l var ∧ l var ≤ u var + 1 / 10 ^ 9

/-- Whether the bounds of another node, laid over those of a program, are strictly inside the bounds
of a node. -/
def ShrinksTo (p : Program Exact) (node other : Node Exact) : Prop :=
  ∃ l u l' u' : Nat → ℚ,
    node.tighten p.lower p.upper = .ok (vector p.size l, vector p.size u) ∧
    other.tighten p.lower p.upper = .ok (vector p.size l', vector p.size u') ∧
    (∀ j < p.size, l j ≤ l' j ∧ u' j ≤ u j) ∧ ∃ j < p.size, l j < l' j ∨ u' j < u j

variable {p : Program Exact} {node kid other : Node Exact} {var : Nat}

theorem NarrowsAt.shrinksTo (h : node.NarrowsAt p kid var) (hvar : var < p.size) :
    node.ShrinksTo p kid := by
  obtain ⟨l, u, bound, hnode, ⟨hlt, hkid⟩ | ⟨hlt, hkid⟩⟩ := h
  · have hle : Function.update u var bound ≤ u := update_le_self_iff.mpr hlt.le
    refine ⟨l, u, l, _, hnode, hkid, fun j _ => ⟨le_rfl, hle j⟩, var, hvar, Or.inr ?_⟩
    rwa [Function.update_self]
  · have hle : l ≤ Function.update l var bound := le_update_self_iff.mpr hlt.le
    refine ⟨l, u, _, u, hnode, hkid, fun j _ => ⟨hle j, le_rfl⟩, var, hvar, Or.inl ?_⟩
    rwa [Function.update_self]

theorem ShrinksTo.trans (h : node.ShrinksTo p kid) (h' : kid.ShrinksTo p other) :
    node.ShrinksTo p other := by
  obtain ⟨l, u, l₁, u₁, hnode, hkid, hle, j, hj, hlt⟩ := h
  obtain ⟨l₁', u₁', l₂, u₂, hkid', hother, hle', -⟩ := h'
  rw [hkid] at hkid'
  obtain ⟨hl, hu⟩ := Prod.mk.inj (Except.ok.inj hkid')
  have hinside : ∀ j < p.size, l₁ j ≤ l₂ j ∧ u₂ j ≤ u₁ j := fun j hj => by
    rw [eq_of_vector_eq hl hj, eq_of_vector_eq hu hj]
    exact hle' j hj
  refine ⟨l, u, l₂, u₂, hnode, hother, fun j hj => ?_, j, hj, ?_⟩
  · exact ⟨(hle j hj).1.trans (hinside j hj).1, (hinside j hj).2.trans (hle j hj).2⟩
  · exact hlt.imp (lt_of_lt_of_le · (hinside j hj).1) (lt_of_le_of_lt (hinside j hj).2 ·)

/-- A node has no box strictly inside its own. -/
theorem ShrinksTo.not_sameBox (h : node.ShrinksTo p other) (hvars : other.vars = node.vars) :
    other.sameBox node = false := by
  by_contra hsame
  obtain ⟨l, u, l', u', hnode, hother, -, j, hj, hlt⟩ := h
  have hcuts : other.cuts = node.cuts := eq_of_beq (Bool.not_eq_false _ ▸ hsame)
  have htighten : other.tighten p.lower p.upper = node.tighten p.lower p.upper := by
    unfold tighten overrides
    rw [hvars, hcuts]
  rw [htighten, hnode] at hother
  obtain ⟨hl, hu⟩ := Prod.mk.inj (Except.ok.inj hother)
  rw [eq_of_vector_eq hl hj, eq_of_vector_eq hu hj] at hlt
  exact hlt.elim (lt_irrefl _) (lt_irrefl _)

end Node

/-! ## Bounds of a child -/

/-- Whether each cut of a node is laid over the bounds of its variable, and the other bounds
stay. -/
structure Node.LaidOver (node : Node Exact) (L U l u : Nat → ℚ) : Prop where
  cut : ∀ {i var : Nat} {c : Cut}, node.vars[i]? = some var → node.cuts[i]? = some c →
    c.raise (ofRat (L var)) = ofRat (l var) ∧ c.cap (ofRat (U var)) = ofRat (u var)
  kept : ∀ {j : Nat}, j ∉ node.vars → l j = L j ∧ u j = U j

section

variable {p : Program Exact} {node kid : Node Exact} {L U l u l' u' : Nat → ℚ} {i var : Nat}
  {c c' : Cut} {k : ℤ}

theorem lt_of_getElem?_vars (hp : p.WellFormed) (hover : node.IsOver p.problem)
    (hvar : node.vars[i]? = some var) : var < p.size := by
  rw [hover.1] at hvar
  exact hp.known var (Array.mem_of_getElem? hvar)

theorem exists_cut_of_mem (hover : node.IsOver p.problem) {j : Nat} (hj : j ∈ node.vars) :
    ∃ (i : Nat) (c : Cut), node.vars[i]? = some j ∧ node.cuts[i]? = some c := by
  obtain ⟨i, hi⟩ := Array.mem_iff_getElem?.mp hj
  have hlt : i < node.cuts.size := by
    rw [hover.2, ← congrArg Array.size hover.1]
    exact (Array.getElem?_eq_some_iff.mp hi).1
  exact ⟨i, _, hi, Array.getElem?_eq_getElem hlt⟩

/-- Another cut at one position leaves the bounds of the other variables alone. -/
theorem Node.LaidOver.eq_of_ne (h : node.LaidOver L U l u) (h' : kid.LaidOver L U l' u')
    (hover : node.IsOver p.problem) (hvar : node.vars[i]? = some var)
    (hvars : kid.vars = node.vars) (hcuts : kid.cuts = node.cuts.setIfInBounds i c') {j : Nat}
    (hne : j ≠ var) : l' j = l j ∧ u' j = u j := by
  by_cases hmem : j ∈ node.vars
  · obtain ⟨k, d, hk, hd⟩ := exists_cut_of_mem hover hmem
    have hik : i ≠ k := fun heq => hne (Option.some.inj (hk.symm.trans (heq ▸ hvar)))
    have hd' : kid.cuts[k]? = some d := by
      rw [hcuts, Array.getElem?_setIfInBounds_ne hik]
      exact hd
    obtain ⟨hlow, hhigh⟩ := h.cut hk hd
    obtain ⟨hlow', hhigh'⟩ := h'.cut (hvars ▸ hk) hd'
    exact ⟨ofRat.inj (hlow'.symm.trans hlow), ofRat.inj (hhigh'.symm.trans hhigh)⟩
  · rw [(h.kept hmem).1, (h.kept hmem).2]
    exact h'.kept (hvars ▸ hmem)

variable (hp : p.WellFormed) (hL : p.lower = vector p.size L) (hU : p.upper = vector p.size U)
  (hover : node.IsOver p.problem)

include hp hL hU hover

/-- The bounds of a node, laid over rational bounds of a program, are rational. -/
theorem exists_laidOver : ∃ l u : Nat → ℚ,
    node.tighten p.lower p.upper = .ok (vector p.size l, vector p.size u) ∧
      node.LaidOver L U l u := by
  have hvars : ∀ var ∈ node.vars, var < p.size := by
    rw [hover.1]
    exact hp.known
  have hnodup : node.vars.toList.Nodup := by
    rw [hover.1]
    exact hp.ascending.imp ne_of_lt
  have hsize : node.cuts.size = node.vars.size := hover.2.trans (congrArg Array.size hover.1).symm
  obtain ⟨l, u, htighten, hcut, hkept⟩ := Node.exists_tighten_entries hvars hnodup hsize
    (fun j => ofRat (L j)) fun j => ofRat (U j)
  have hfinite : ∀ j, ∃ q q' : ℚ, l j = ofRat q ∧ u j = ofRat q' := by
    intro j
    by_cases hj : j ∈ node.vars
    · obtain ⟨i, c, hi, hc⟩ := exists_cut_of_mem hover hj
      obtain ⟨hl, hu⟩ := hcut i j c hi hc
      rw [hl, hu]
      rcases Cut.raise_cases c (ofRat (L j)) with hraise | ⟨k, hraise⟩ <;>
        rcases Cut.cap_cases c (ofRat (U j)) with hcap | ⟨k', hcap⟩ <;>
        exact ⟨_, _, hraise, hcap⟩
    · exact ⟨L j, U j, hkept j hj⟩
  choose l' u' hl hu using hfinite
  obtain rfl : l = fun j => ofRat (l' j) := funext hl
  obtain rfl : u = fun j => ofRat (u' j) := funext hu
  refine ⟨l', u', by rw [hL, hU]; exact htighten, fun hvar hc => ?_, fun hj => ?_⟩
  · obtain ⟨hraise, hcap⟩ := hcut _ _ _ hvar hc
    exact ⟨hraise.symm, hcap.symm⟩
  · obtain ⟨hlow, hhigh⟩ := hkept _ hj
    exact ⟨ofRat.inj hlow, ofRat.inj hhigh⟩

variable (hnode : node.tighten p.lower p.upper = .ok (vector p.size l, vector p.size u))
  (hvar : node.vars[i]? = some var) (hc : node.cuts[i]? = some c) (hvars : kid.vars = node.vars)

include hnode hvar hc hvars

/-- A node and one with another cut at one position have the same bounds but for those of the
variable there. -/
theorem exists_tighten_recut (hcuts : kid.cuts = node.cuts.setIfInBounds i c') : ∃ lo hi : ℚ,
    kid.tighten p.lower p.upper =
      .ok (vector p.size (Function.update l var lo), vector p.size (Function.update u var hi)) ∧
    c.raise (ofRat (L var)) = ofRat (l var) ∧ c.cap (ofRat (U var)) = ofRat (u var) ∧
    c'.raise (ofRat (L var)) = ofRat lo ∧ c'.cap (ofRat (U var)) = ofRat hi := by
  have hover' : kid.IsOver p.problem := by
    refine ⟨hvars.trans hover.1, ?_⟩
    rw [hcuts, Array.size_setIfInBounds]
    exact hover.2
  have hc' : kid.cuts[i]? = some c' := by
    rw [hcuts, Array.getElem?_setIfInBounds_self_of_lt (Array.getElem?_eq_some_iff.mp hc).1]
  obtain ⟨l₁, u₁, hnode₁, hlaid⟩ := exists_laidOver hp hL hU hover
  obtain ⟨l', u', hkid, hlaid'⟩ := exists_laidOver hp hL hU hover'
  rw [hnode] at hnode₁
  obtain ⟨hl, hu⟩ := Prod.mk.inj (Except.ok.inj hnode₁)
  have hlt := lt_of_getElem?_vars hp hover hvar
  have hsame {j : Nat} (hne : j ≠ var) := hlaid.eq_of_ne hlaid' hover hvar hvars hcuts hne
  refine ⟨l' var, u' var, ?_, ?_, ?_, hlaid'.cut (hvars ▸ hvar) hc'⟩
  · rw [hkid, vector_eq_update fun j hj hne => (hsame hne).1.trans (eq_of_vector_eq hl hj).symm,
      vector_eq_update fun j hj hne => (hsame hne).2.trans (eq_of_vector_eq hu hj).symm]
  · rw [eq_of_vector_eq hl hlt]
    exact (hlaid.cut hvar hc).1
  · rw [eq_of_vector_eq hu hlt]
    exact (hlaid.cut hvar hc).2

/-- A child below a whole number narrows a node whose upper bound is above it. -/
theorem narrowsAt_of_atMost
    (hcuts : kid.cuts = node.cuts.setIfInBounds i { c with atMost := some k })
    (hk : k < u var) : node.NarrowsAt p kid var := by
  obtain ⟨lo, hi, hkid, hraise, -, hraise', hcap'⟩ :=
    exists_tighten_recut hp hL hU hover hnode hvar hc hvars hcuts
  -- the lower bound is raised by the same cut as before
  obtain rfl : lo = l var := ofRat.inj (hraise'.symm.trans hraise)
  replace hcap' : Scalar.minNum (ofRat (U var)) (ofRat k) = ofRat hi := hcap'
  rw [minNum_ofRat, ofRat.injEq] at hcap'
  rw [Function.update_eq_self] at hkid
  refine ⟨l, u, hi, hnode, Or.inl ⟨?_, hkid⟩⟩
  calc hi = min (U var) k := hcap'.symm
    _ ≤ k := min_le_right _ _
    _ < u var := hk

/-- A child above a whole number narrows a node whose lower bound is below it. -/
theorem narrowsAt_of_atLeast
    (hcuts : kid.cuts = node.cuts.setIfInBounds i { c with atLeast := some k })
    (hk : l var < k) : node.NarrowsAt p kid var := by
  obtain ⟨lo, hi, hkid, -, hcap, hraise', hcap'⟩ :=
    exists_tighten_recut hp hL hU hover hnode hvar hc hvars hcuts
  obtain rfl : hi = u var := ofRat.inj (hcap'.symm.trans hcap)
  replace hraise' : Scalar.maxNum (ofRat (L var)) (ofRat k) = ofRat lo := hraise'
  rw [maxNum_ofRat, ofRat.injEq] at hraise'
  rw [Function.update_eq_self] at hkid
  refine ⟨l, u, lo, hnode, Or.inr ⟨?_, hkid⟩⟩
  calc l var < k := hk
    _ ≤ max (L var) k := le_max_right _ _
    _ = lo := hraise'

end

/-! ## Branching at a point of the relaxation -/

/-- A child has the bound next to the value on one of its sides. -/
theorem recut_of_split {α : Type} [Scalar α] {node kid : Node α} {b : Branching α} {objective : α}
    {s : Split α} (h : node.split b objective = .ok s) (hkid : kid = s.continued ∨ kid = s.forked) :
    kid.vars = node.vars ∧ ∃ c, node.cuts[b.position]? = some c ∧
      (kid.cuts = node.cuts.setIfInBounds b.position
          { c with atMost := some (Scalar.toInt (Scalar.floor b.value)) } ∨
        kid.cuts = node.cuts.setIfInBounds b.position
          { c with atLeast := some (Scalar.toInt (Scalar.ceil b.value)) }) := by
  refine ⟨(Node.of_split h hkid).1, ?_⟩
  obtain ⟨c, hc, ⟨hbelow, habove⟩ | ⟨hbelow, habove⟩⟩ := Node.split_eq_ok h
  · rcases hkid with rfl | rfl
    · exact ⟨c, hc, Or.inl (congrArg Node.cuts hbelow)⟩
    · exact ⟨c, hc, Or.inr (congrArg Node.cuts habove)⟩
  · rcases hkid with rfl | rfl
    · exact ⟨c, hc, Or.inr (congrArg Node.cuts habove)⟩
    · exact ⟨c, hc, Or.inl (congrArg Node.cuts hbelow)⟩

/-- The whole numbers around a value that is off by more than a gap are further away than it. -/
theorem floor_lt_and_lt_ceil {q gap : ℚ} (h : gap < |q - nearest q|) :
    ⌊q⌋ < q - gap ∧ q + gap < ⌈q⌉ := by
  have hfloor := abs_sub_nearest_le q ⌊q⌋
  have hceil := abs_sub_nearest_le q ⌈q⌉
  rw [abs_of_nonneg (sub_nonneg.mpr (Int.floor_le q))] at hfloor
  rw [abs_of_nonpos (sub_nonpos.mpr (Int.le_ceil q))] at hceil
  constructor <;> linarith

section

variable {p : Program Exact} {r : OneRow Exact} {node kid : Node Exact} {answer : Answer Exact}
  {criteria : Criteria Exact} {t : ℚ} {b : Branching Exact} {objective : Exact} {s : Split Exact}

/-- The children at a point of the relaxation narrow their node at the variable that it branches on,
unless the bounds of the variable cross and the tolerance is less than they may cross by. -/
theorem narrowsAt_of_split (hp : p.WellFormed) (hr : OneRow.ofProgram p = .ok r)
    (hlower : ∀ v ∈ p.lower, Scalar.isFinite v = true)
    (hupper : ∀ v ∈ p.upper, Scalar.isFinite v = true) (hover : node.IsOver p.problem)
    {cutoff : Option (Cutoff Exact)} (hanswer : r.answer node cutoff = .ok answer)
    (hfeasible : answer.verdict.isFeasible = true) (ht : criteria.integrality = .ofRat t)
    (htnonneg : 0 ≤ t) (hb : criteria.branching? answer.point node = .ok (some b))
    (hsplit : node.split b objective = .ok s) (hkid : kid = s.continued ∨ kid = s.forked) :
    node.NarrowsAt p kid b.var ∨ t < 1 / 10 ^ 9 ∧ node.CrossedAt p b.var := by
  obtain ⟨L, hL⟩ := exists_eq_vector hlower
  obtain ⟨U, hU⟩ := exists_eq_vector hupper
  rw [hp.size_lower] at hL
  rw [hp.size_upper] at hU
  obtain ⟨l, u, htighten, -⟩ := exists_laidOver hp hL hU hover
  obtain ⟨hvar, hvalue, hfrac⟩ := Criteria.branching?_eq_some hb
  have hlt := lt_of_getElem?_vars hp hover hvar
  obtain ⟨hle, hcoordinate⟩ := OneRow.point_of_answer hp hr htighten hanswer hfeasible hlt
  obtain ⟨q, hq, hbetween⟩ := hcoordinate b.value hvalue
  rw [hq, ht, fractionality_ofRat, ofRat_lt] at hfrac
  by_cases hcrossed : t < 1 / 10 ^ 9 ∧ u b.var < l b.var
  · exact Or.inr ⟨hcrossed.1, l, u, htighten, hcrossed.2, hle⟩
  -- the bounds cross by a gap at most that the tolerance makes up for
  obtain ⟨gap, hgap, hgapt, hle⟩ : ∃ gap : ℚ, 0 ≤ gap ∧ gap ≤ t ∧ l b.var ≤ u b.var + gap := by
    rw [not_and_or, not_lt, not_lt] at hcrossed
    rcases hcrossed with hlarge | horder
    · exact ⟨1 / 10 ^ 9, by norm_num, hlarge, hle⟩
    · exact ⟨0, le_rfl, htnonneg, by linarith⟩
  obtain ⟨hlow, hhigh⟩ := hbetween.near hgap hle
  obtain ⟨hfloor, hceil⟩ := floor_lt_and_lt_ceil (hgapt.trans_lt hfrac)
  obtain ⟨hvars, c, hc, hcuts | hcuts⟩ := recut_of_split hsplit hkid
  · rw [hq, floor_ofRat, toInt_intCast] at hcuts
    exact Or.inl (narrowsAt_of_atMost hp hL hU hover htighten hvar hc hvars hcuts (by linarith))
  · rw [hq, ceil_ofRat, toInt_intCast] at hcuts
    exact Or.inl (narrowsAt_of_atLeast hp hL hU hover htighten hvar hc hvars hcuts (by linarith))

end

/-! ## Searches -/

section

variable {p : Program Exact} {r : OneRow Exact} {settings : Settings Exact} {node kid : Node Exact}

/-- What a visit makes of the bounds of a node of the problem. -/
theorem narrowsAt_of_visit (hp : p.WellFormed) (hr : OneRow.ofProgram p = .ok r)
    (hlower : ∀ v ∈ p.lower, Scalar.isFinite v = true)
    (hupper : ∀ v ∈ p.upper, Scalar.isFinite v = true) (hcheck : settings.check = .ok ())
    (hover : node.IsOver p.problem) {elapsed : Nat} {σ : State Exact} {v : Visit Exact}
    (hvisit : visit ⟨p.problem, r.relaxation, settings⟩ elapsed σ node = .ok v)
    (hkid : kid ∈ v.outcome.children) :
    ∃ b direction, Event.branched node b direction ∈ v.events ∧
      node.vars[b.position]? = some b.var ∧ node.RecutsAt kid b.position ∧
      (node.NarrowsAt p kid b.var ∨
        settings.integrality < OneRow.boundTolerance ∧ node.CrossedAt p b.var) := by
  cases Visit.course_of_visit hvisit with
  | outOfBudget | seenBefore | unpromising | noPoint | overCeiling | unusable | whole
  | dominated => cases hkid
  | @split answer events b s takes hbranching _ hsplit =>
    replace hkid : kid = s.continued ∨ kid = s.forked := by
      rwa [Outcome.children, List.mem_cons, List.mem_singleton] at hkid
    obtain ⟨-, -, ⟨t, ht, htnonneg⟩, -⟩ := Settings.of_check hcheck
    obtain ⟨hvars, c, hc, hcuts⟩ := recut_of_split hsplit hkid
    refine ⟨b, s.direction, List.mem_append_right _ (List.mem_singleton_self _),
      (Criteria.branching?_eq_some hbranching).1, ⟨hvars, c, ?_⟩, ?_⟩
    · rcases hcuts with hcuts | hcuts
      · exact ⟨_, hc, Or.inl hcuts⟩
      · exact ⟨_, hc, Or.inr hcuts⟩
    · rw [ht, OneRow.boundTolerance_eq, ofRat_lt]
      exact narrowsAt_of_split hp hr hlower hupper hover takes.answered takes.feasible ht htnonneg
        hbranching hsplit hkid

/-- Along every schedule of a search of a program with at most one row and finite bounds, a child
differs from its node in one bound of one cut, where the node branched. Its bounds, laid over those
of the program, are strictly tighter there and else the same, unless the bounds of its node cross
there and the integrality tolerance is less than they may cross by. With a tolerance that is not,
the boxes along every path are strictly inside each other, and none comes up again. -/
theorem branches_narrow {sense : Sense} {costs : Array Exact} {steps : List (Program.Step Exact)}
    (hbuild : Program.build sense costs steps = .ok p) (hr : OneRow.ofProgram p = .ok r)
    (hlower : ∀ v ∈ p.lower, Scalar.isFinite v = true)
    (hupper : ∀ v ∈ p.upper, Scalar.isFinite v = true) (hcheck : settings.check = .ok ())
    {warmStart : Option (Array Exact)} {start : Run Exact}
    (hstart : Search.start ⟨p.problem, r.relaxation, settings⟩ warmStart = .ok start) :
    let search : Search Exact := ⟨p.problem, r.relaxation, settings⟩
    (∀ (s : Run Exact) (elapsed : Nat) (node kid : Node Exact) (v : Visit Exact),
      Run.Reaches search start s → node ∈ s.pending →
      visit search elapsed s.state node = .ok v → kid ∈ v.outcome.children →
      ∃ b direction, Event.branched node b direction ∈ v.events ∧
        node.vars[b.position]? = some b.var ∧ node.RecutsAt kid b.position ∧
        (node.NarrowsAt p kid b.var ∨
          settings.integrality < OneRow.boundTolerance ∧ node.CrossedAt p b.var)) ∧
    (OneRow.boundTolerance ≤ settings.integrality → ∀ node kid : Node Exact,
      Relation.TransGen (Run.Branches search start) node kid →
      node.ShrinksTo p kid ∧ kid.sameBox node = false) := by
  intro search
  have hp := (Program.of_build hbuild).wellFormed
  have hover : ∀ {s : Run Exact}, Run.Reaches search start s →
      ∀ node ∈ s.pending, node.IsOver p.problem := fun h =>
    (Run.invariant_of_reaches (fun hstep hs => hs.of_advances hstep) h
      (Run.coherent_start hstart)).isOver
  refine ⟨fun s elapsed node kid v hreaches hnode hvisit hkid => ?_, fun htolerance => ?_⟩
  · exact narrowsAt_of_visit hp hr hlower hupper hcheck (hover hreaches node hnode) hvisit hkid
  · have hstep : ∀ {node kid : Node Exact}, Run.Branches search start node kid →
        kid.vars = node.vars ∧ node.ShrinksTo p kid := by
      rintro node kid ⟨s, elapsed, v, hreaches, hnode, hvisit, hkid⟩
      have hover := hover hreaches node hnode
      obtain ⟨b, -, -, hvar, hrecuts, hnarrows | ⟨hlt, -⟩⟩ :=
        narrowsAt_of_visit hp hr hlower hupper hcheck hover hvisit hkid
      · exact ⟨hrecuts.1, hnarrows.shrinksTo (lt_of_getElem?_vars hp hover hvar)⟩
      · exact absurd hlt (Exact.not_lt_of_le htolerance)
    intro node kid hpath
    -- strict inclusion of boxes goes along the path
    have hinside : kid.vars = node.vars ∧ node.ShrinksTo p kid := by
      induction hpath with
      | single h => exact hstep h
      | tail _ h ih => exact ⟨(hstep h).1.trans ih.1, ih.2.trans (hstep h).2⟩
    exact ⟨hinside.2, hinside.2.not_sameBox hinside.1⟩

end

/-! ## The least whole `x` up to one -/

namespace OneRow.UpToOne

/-- The search for the least whole `x` between a number and one. -/
def search (lower tolerance : ℚ) : Search Exact where
  problem := (Program.line (.ofRat 1) (.ofRat lower) (.ofRat 1)).problem
  relaxation := relaxation ⟨.line (.ofRat 1) (.ofRat lower) (.ofRat 1), #[.ofRat 1]⟩
  settings := { Settings.standard with integrality := .ofRat tolerance }

theorem build_eq (lower : ℚ) : Program.build .minimise #[.ofRat 1]
    [.bounds 0 (.ofRat lower) (.ofRat 1), .integer 0] =
      .ok (.line (.ofRat 1) (.ofRat lower) (.ofRat 1)) :=
  Program.build_line _ (by simp) (by simp)

theorem exists_mem_children {α : Type} {v : Visit α} {cuts : Array Cut} {more : List (Array Cut)}
    (h : v.outcome.children.map Node.cuts = cuts :: more) :
    ∃ kid ∈ v.outcome.children, kid.cuts = cuts := by
  refine List.mem_map.mp ?_
  rw [h]
  exact List.mem_cons_self

/-- From a half on, the root has a child at zero and below. Its bounds are tighter. -/
theorem branches_narrow_from_half : ∃ start node kid,
    (search (1 / 2) (1 / 4)).start none = .ok start ∧
    Run.Branches (search (1 / 2) (1 / 4)) start node kid ∧ kid.cuts = #[{ atMost := some 0 }] ∧
    node.ShrinksTo (.line (.ofRat 1) (.ofRat (1 / 2)) (.ofRat 1)) kid ∧
    kid.sameBox node = false := by
  obtain ⟨start, hstart⟩ := Search.start_ok (search (1 / 2) (1 / 4))
  obtain ⟨hpending, hopens, -⟩ := Search.start_eq_ok hstart
  obtain ⟨v, hvisit, hkids⟩ : ∃ v, visit (search (1 / 2) (1 / 4)) 0 start.state
      (search (1 / 2) (1 / 4)).root = .ok v ∧ v.outcome.children.map Node.cuts =
        [#[{ atMost := some 0 }], #[{ atLeast := some 1 }]] := by
    rw [hopens.eq_initial]
    refine exists_of_toOption_map ?_
    decide +kernel
  obtain ⟨kid, hkid, hcuts⟩ := exists_mem_children hkids
  have hbranches : Run.Branches (search (1 / 2) (1 / 4)) start _ kid :=
    ⟨start, 0, v, Relation.ReflTransGen.refl, by rw [hpending]; exact List.mem_singleton_self _,
      hvisit, hkid⟩
  obtain ⟨-, hpath⟩ := branches_narrow (build_eq (1 / 2)) rfl (by simp [Program.line])
    (by simp [Program.line]) (by decide +kernel) hstart
  obtain ⟨hshrinks, hnew⟩ := hpath (by decide +kernel) _ _ (.single hbranches)
  exact ⟨start, _, kid, hstart, hbranches, hcuts, hshrinks, hnew⟩

/-- From `1e-10` on, with no tolerance, the child of the root at zero and below has crossed bounds,
is branched at `1e-10` again, and has a child with its own box. -/
theorem branches_again_on_crossed_bounds : ∃ (p : Program Exact) (r : OneRow Exact)
    (settings : Settings Exact) (start : Run Exact) (node kid : Node Exact),
    Program.build .minimise #[.ofRat 1] [.bounds 0 (.ofRat (1 / 10 ^ 10)) (.ofRat 1), .integer 0] =
      .ok p ∧ OneRow.ofProgram p = .ok r ∧ settings.check = .ok () ∧
    Search.start ⟨p.problem, r.relaxation, settings⟩ none = .ok start ∧
    Run.Branches ⟨p.problem, r.relaxation, settings⟩ start node kid ∧
    kid.sameBox node = true := by
  let problem := search (1 / 10 ^ 10) 0
  obtain ⟨start, hstart⟩ := Search.start_ok problem
  have hfollow : ((problem.start none >>= (·.follow problem [0])).toOption.map
      fun s => s.pending.map Node.cuts) =
        some [#[{ atMost := some 0 }], #[{ atLeast := some 1 }]] := by decide +kernel
  have hagain : ((problem.start none >>= (·.follow problem [0]) >>= fun s =>
      visit problem 0 s.state (s.pending.headD problem.root)).toOption.map
        fun v => v.outcome.children.map Node.cuts) =
      some [#[{ atMost := some 0 }], #[{ atLeast := some 1, atMost := some 0 }]] := by
    decide +kernel
  rw [hstart] at hfollow hagain
  obtain ⟨s, hs, hpending⟩ := exists_of_toOption_map hfollow
  replace hs : start.follow problem [0] = .ok s := hs
  simp only [bind, Except.bind, hs] at hagain
  obtain ⟨v, hvisit, hkids⟩ := exists_of_toOption_map hagain
  obtain ⟨kid, hkid, hcuts⟩ := exists_mem_children hkids
  cases hnodes : s.pending with
  | nil =>
    rw [hnodes] at hpending
    cases hpending
  | cons node rest =>
    rw [hnodes, List.map_cons, List.cons.injEq] at hpending
    rw [hnodes, List.headD_cons] at hvisit
    refine ⟨_, _, _, start, node, kid, build_eq (1 / 10 ^ 10), rfl, by decide +kernel, hstart,
      ⟨s, 0, v, Run.reaches_of_follow hs, ?_, hvisit, hkid⟩, ?_⟩
    · rw [hnodes]
      exact List.mem_cons_self
    · unfold Node.sameBox
      rw [hcuts, hpending.1]
      rfl

end OneRow.UpToOne

end BranchBound
