import BranchBound.Proofs.Bounding
import BranchBound.Proofs.Branching

/-!
# Coherence

What every visit leaves alone, in all numbers and along every schedule. The pending nodes are nodes
of the problem, and the incumbent has a valid value, which is the objective of its point
(`Run.Coherent`). An incumbent is kept or gives way to a better one (`best_of_visit`), and children
come of a split at the point that was taken (`children_of_visit`).
-/

namespace BranchBound

variable {α : Type} [Scalar α]

omit [Scalar α] in
theorem callsOf_append (journal : Array (Event α)) (events : List (Event α)) :
    callsOf (journal ++ events) = callsOf journal ++ events.filterMap Event.call? := by
  unfold callsOf
  rw [Array.toList_appendList, List.filterMap_append]

/-- The calls of a run are those in its report. -/
theorem Run.calls_finish (r : Run α) (elapsed : Nat) :
    callsOf (r.finish elapsed).journal = callsOf r.journal := by
  unfold finish callsOf
  cases r.aborted <;> simp [Event.call?]

/-- The pending nodes are nodes of the problem, the scoreboard has its sense, and the incumbent has
a valid value, which is the objective of its point. -/
structure Run.Coherent (search : Search α) (r : Run α) : Prop where
  isOver : ∀ node ∈ r.pending, node.IsOver search.problem
  sense : r.state.board.sense = search.problem.sense
  best : ∀ best, r.state.board.best = some best → Scalar.isNaN best.objective = false ∧
    best.objective = search.problem.objective best.point

variable {search : Search α}

/-- A visit keeps the scoreboard's sense, and the incumbent unless it offers a whole point. -/
theorem board_of_visit {elapsed : Nat} {σ : State α} {node : Node α} {v : Visit α}
    (h : visit search elapsed σ node = .ok v) : v.state.board.sense = σ.board.sense ∧
      (v.state.board.best = σ.board.best ∨ ∃ answer events,
        Visit.Takes search elapsed σ node answer events ∧
        search.criteria.branching? answer.point node = .ok none ∧
        v.state.board.best = (σ.board.countSolved.offer answer.point
          (search.problem.objective answer.point)).2.best) := by
  cases Visit.course_of_visit h with
  | whole takes hnone =>
    exact ⟨Scoreboard.sense_offer _ _ _, Or.inr ⟨_, _, takes, hnone, rfl⟩⟩
  | outOfBudget | seenBefore | unpromising | noPoint | overCeiling | unusable | dominated
  | split => exact ⟨rfl, Or.inl rfl⟩

/-- A visit keeps the incumbent or puts a better one in its place. -/
theorem best_of_visit {elapsed : Nat} {σ : State α} {node : Node α} {v : Visit α}
    (hsense : σ.board.sense = search.problem.sense)
    (h : visit search elapsed σ node = .ok v) {best : Incumbent α}
    (hbest : σ.board.best = some best) : ∃ best', v.state.board.best = some best' ∧
      (best' = best ∨
        search.problem.sense.better best'.objective best.objective = true) := by
  rcases (board_of_visit h).2 with hsame | ⟨answer, _, _, _, hoffer⟩
  · rw [hsame]
    exact ⟨best, hbest, Or.inl rfl⟩
  · rw [hoffer, ← hsense]
    exact Scoreboard.best_offer_of_some _ hbest

/-- The incumbent after a visit was the one before, or it is the whole point that was taken. -/
theorem best_cases_of_visit {elapsed : Nat} {σ : State α} {node : Node α} {v : Visit α}
    (h : visit search elapsed σ node = .ok v) {best : Incumbent α}
    (hbest : v.state.board.best = some best) : σ.board.best = some best ∨ ∃ answer events,
      Visit.Takes search elapsed σ node answer events ∧
      search.criteria.branching? answer.point node = .ok none ∧
      Scalar.isNaN (search.problem.objective answer.point) = false ∧
      best = ⟨answer.point, search.problem.objective answer.point⟩ := by
  rcases (board_of_visit h).2 with hsame | ⟨answer, events, takes, hnone, hoffer⟩
  · rw [hsame] at hbest
    exact Or.inl hbest
  · rw [hoffer] at hbest
    rcases Scoreboard.best_offer_cases σ.board.countSolved answer.point
      (search.problem.objective answer.point) with hsame | ⟨hnew, hvalid⟩
    · rw [hsame] at hbest
      exact Or.inl hbest
    · rw [hnew] at hbest
      exact Or.inr ⟨answer, events, takes, hnone, hvalid, (Option.some.inj hbest).symm⟩

/-- The children of a visited node come of a split at the point that was taken. -/
theorem children_of_visit {elapsed : Nat} {σ : State α} {node kid : Node α} {v : Visit α}
    (h : visit search elapsed σ node = .ok v) (hkid : kid ∈ v.outcome.children) :
    ∃ answer events branching s, Visit.Takes search elapsed σ node answer events ∧
      search.criteria.branching? answer.point node = .ok (some branching) ∧
      node.split branching (search.problem.objective answer.point) = .ok s ∧
      v.outcome = .branched s.continued s.forked ∧ (kid = s.continued ∨ kid = s.forked) := by
  cases Visit.course_of_visit h with
  | split takes hbranching improves hsplit =>
    rw [Outcome.children, List.mem_cons, List.mem_singleton] at hkid
    exact ⟨_, _, _, _, takes, hbranching, hsplit, rfl, hkid⟩
  | outOfBudget | seenBefore | unpromising | noPoint | overCeiling | unusable | whole
  | dominated => cases hkid

/-- The children of a visited node divide its box, if it allows every point that is taken. -/
theorem parts_of_visit [Lawful α] {elapsed : Nat} {σ : State α} {node : Node α} {v : Visit α}
    (ht : Exact.ofRat 0 ≤ Lawful.value search.settings.integrality)
    (hin : ∀ {answer : Answer α} {events : List (Event α)},
      Visit.Takes search elapsed σ node answer events → node.Allows answer.point)
    (hover : node.IsOver search.problem)
    (hne : (box search.problem.integers.size node.cuts).Nonempty)
    (h : visit search elapsed σ node = .ok v) {a b : Node α} (ho : v.outcome = .branched a b) :
    Node.Parts search.problem.integers.size node a b := by
  have ha : a ∈ v.outcome.children := by
    rw [ho]
    exact List.mem_cons_self
  obtain ⟨answer, events, branching, s, takes, hbranching, hsplit, ho', -⟩ := children_of_visit h ha
  rw [ho, Outcome.branched.injEq] at ho'
  rw [ho'.1, ho'.2]
  have ht' : Exact.ofRat 0 ≤ Lawful.value search.criteria.integrality := ht
  exact parts_of_split ht' hover (Visit.finite_of_isUsable takes.usable) (hin takes) hne hbranching
    hsplit

theorem Run.Coherent.of_advances {r s : Run α} (hr : r.Coherent search)
    (h : Advances search r s) : s.Coherent search := by
  obtain ⟨before, after, node, elapsed, v, hperm, hvisit, rfl⟩ := h.exists_visit
  have hnode : node ∈ r.pending := hperm.mem_iff.mpr List.mem_cons_self
  refine ⟨?_, ?_, ?_⟩
  · intro kid hkid
    rw [pending_absorb, List.mem_append] at hkid
    rcases hkid with hkid | hrest
    · obtain ⟨_, _, _, _, -, -, hsplit, -, hside⟩ := children_of_visit hvisit hkid
      exact (hr.isOver node hnode).of_split hsplit hside
    · exact hr.isOver kid (hperm.mem_iff.mpr (List.mem_cons_of_mem node hrest))
  · rw [state_absorb, (board_of_visit hvisit).1, hr.sense]
  · intro best hb
    rw [state_absorb] at hb
    rcases best_cases_of_visit hvisit hb with hold | ⟨_, _, -, -, hvalid, rfl⟩
    · exact hr.best best hold
    · exact ⟨hvalid, rfl⟩

theorem Run.Coherent.isOver_head {r : Run α} (h : r.Coherent search) {node : Node α}
    {rest : List (Node α)} (hpending : r.pending = node :: rest) : node.IsOver search.problem := by
  refine h.isOver node ?_
  rw [hpending]
  exact List.mem_cons_self

/-- A run is coherent at its start. -/
theorem Run.coherent_start {warmStart : Option (Array α)} {r : Run α}
    (h : search.start warmStart = .ok r) : r.Coherent search := by
  obtain ⟨hpending, hopens, -⟩ := Search.start_eq_ok h
  refine ⟨?_, ?_, ?_⟩
  · intro node hnode
    rw [hpending, List.mem_singleton] at hnode
    rw [hnode]
    exact Node.isOver_root
  · exact hopens.sense
  · intro best hb
    rcases hopens.best_cases with hnone | ⟨x, -, -, hvalid, hx⟩
    · rw [hnone] at hb
      cases hb
    · rw [hx] at hb
      rw [← Option.some.inj hb]
      exact ⟨hvalid, rfl⟩

end BranchBound
