import BranchBound.Proofs.Incumbents
import Mathlib.Logic.Function.Basic

/-!
# Offers that interleave

Several clients share one scoreboard. An offer is then no single step: it is counted, it is compared
with the best value at that moment, and later, under a lock, it is compared once more and replaces
the incumbent. Steps of other clients and reads come in between, so the value of the first
comparison may be an old one by the time of the second.

`Step` has the steps and what is told about them, `Steps` any number of them one after the other. A
client that nobody interrupts makes the offer of `Scoreboard.offer` (`exists_steps_of_offer`). What
carries over to interrupted ones is that incumbents only get better: an offer that does not beat an
old value does not beat the present one either (`Shared.Coherent.not_improves`). So every offer is
answered as if it were made in one step at the moment of its reply (`Step.reply_eq_offer`), and the
order of the replies says who was first.
-/

namespace BranchBound

variable {α : Type} [Scalar α]

/-! ## The best of several offers -/

/-- Whether a value is strictly better than another one, or there is no other. -/
def Sense.improvesOn (sense : Sense) (seen : Option α) (objective : α) : Bool :=
  match seen with
  | none => true
  | some value => sense.better objective value

/-- What is held of several offers: the first of the best valid ones, and nothing if none of them is
valid. -/
def Sense.Leads (sense : Sense) (bids : List (Incumbent α)) : Option (Incumbent α) → Prop
  | none => ∀ bid ∈ bids, Scalar.isNaN bid.objective = true
  | some best => Scalar.isNaN best.objective = false ∧
      ∃ before after, bids = before ++ best :: after ∧
        (∀ bid ∈ before, Scalar.isNaN bid.objective = false →
          sense.better best.objective bid.objective = true) ∧
        ∀ bid ∈ after, sense.better bid.objective best.objective = false

section

variable [Lawful α] {sense : Sense} {bids : List (Incumbent α)} {bid : Incumbent α}

open Lawful

/-- What beats a valid value beats everything that does not beat that value. -/
theorem Sense.better_of_not_better {a b c : α} (hb : Scalar.isNaN b = false)
    (hc : Scalar.isNaN c = false) (hab : sense.better a b = true) (hcb : sense.better c b = false) :
    sense.better a c = true := by
  rw [isNaN_eq, Exact.isNaN_eq_false_iff] at hb hc
  rw [better_iff] at hab hcb ⊢
  exact better_of_better_of_noWorse hab (noWorse_of_not_better hb hc hcb)

/-- An offer that is not taken leaves the lead as it is. -/
theorem Sense.Leads.keep {best : Option (Incumbent α)} (h : sense.Leads bids best)
    (hbid : Scalar.isNaN bid.objective = true ∨
      ∃ old, best = some old ∧ sense.better bid.objective old.objective = false) :
    sense.Leads (bids ++ [bid]) best := by
  cases best with
  | none =>
    obtain hnan | ⟨old, hold, -⟩ := hbid
    · exact List.forall_mem_append.mpr ⟨h, List.forall_mem_singleton.mpr hnan⟩
    · cases hold
  | some best =>
    obtain ⟨hvalid, before, after, rfl, hbefore, hafter⟩ := h
    have hnot : sense.better bid.objective best.objective = false := by
      rcases hbid with hnan | ⟨old, hold, hnot⟩
      · exact not_better_of_isNaN hnan
      · rwa [← Option.some.inj hold] at hnot
    refine ⟨hvalid, before, after ++ [bid], by simp, hbefore, ?_⟩
    exact List.forall_mem_append.mpr ⟨hafter, List.forall_mem_singleton.mpr hnot⟩

/-- An offer that is taken is the lead. -/
theorem Sense.Leads.replace {best : Option (Incumbent α)} (h : sense.Leads bids best)
    (hvalid : Scalar.isNaN bid.objective = false)
    (hbetter : ∀ old, best = some old → sense.better bid.objective old.objective = true) :
    sense.Leads (bids ++ [bid]) (some bid) := by
  refine ⟨hvalid, bids, [], rfl, fun other hother hother' => ?_, fun _ h => nomatch h⟩
  cases best with
  | none =>
    rw [h other hother] at hother'
    cases hother'
  | some best =>
    obtain ⟨hbest, before, after, rfl, hbefore, hafter⟩ := h
    have hlead := hbetter best rfl
    rcases List.mem_append.mp hother with hmem | hmem
    · exact better_trans hlead (hbefore other hmem hother')
    · rcases List.mem_cons.mp hmem with rfl | hmem
      · exact hlead
      · exact better_of_not_better hbest hother' hlead (hafter other hmem)

/-- Offered in one step, an offer leads if it is the first of the best, and else changes nothing. -/
theorem Scoreboard.leads_offer {board : Scoreboard α} (h : board.sense.Leads bids board.best)
    (bid : Incumbent α) :
    board.sense.Leads (bids ++ [bid]) (board.offer bid.point bid.objective).2.best := by
  rw [best_offer]
  have himproves : board.improves bid.objective = true ↔ ∀ old, board.best = some old →
      board.sense.better bid.objective old.objective = true := by
    unfold improves bestValue
    cases board.best <;> simp
  cases ho : (board.offer bid.point bid.objective).1 with
  | true =>
    obtain ⟨hvalid, hbetter⟩ := (offer_fst_iff _ _ _).mp ho
    exact h.replace hvalid (himproves.mp hbetter)
  | false =>
    refine h.keep ?_
    rw [← Bool.not_eq_true, offer_fst_iff, himproves] at ho
    push Not at ho
    cases hn : Scalar.isNaN bid.objective with
    | true => exact Or.inl rfl
    | false =>
      obtain ⟨old, hold, hnot⟩ := ho hn
      exact Or.inr ⟨old, hold, by simpa using hnot⟩

end

/-! ## The steps of an offer -/

/-- How far a client has come with an offer. -/
inductive Stage (α : Type) where
  | idle
  | counted (bid : Incumbent α)
  /-- The offer was compared with what was the best value at that moment. -/
  | looked (bid : Incumbent α) (seen : Option α)

/-- What a client does. -/
inductive Action (α : Type) where
  | count (bid : Incumbent α)
  | look (seen : Option α)
  /-- The offer ends; the flag says whether it replaced the incumbent. -/
  | reply (bid : Incumbent α) (taken : Bool)
  | read (best : Option (Incumbent α))

/-- A scoreboard and its clients. -/
structure Shared (ι α : Type) where
  board : Scoreboard α
  stage : ι → Stage α

namespace Shared

variable {ι : Type}

/-- Nothing was offered yet. -/
def start (sense : Sense) : Shared ι α where
  board := { sense }
  stage _ := .idle

variable [DecidableEq ι]

/-- The client comes to a stage, and leaves a scoreboard. -/
def move (s : Shared ι α) (i : ι) (stage : Stage α) (board : Scoreboard α) : Shared ι α where
  board := board
  stage := Function.update s.stage i stage

variable (s : Shared ι α) (i : ι) (stage : Stage α) (board : Scoreboard α)

omit [Scalar α]

@[simp] theorem board_move : (s.move i stage board).board = board := rfl

@[simp] theorem stage_move_self : (s.move i stage board).stage i = stage :=
  Function.update_self ..

@[simp] theorem stage_move_of_ne {j : ι} (h : j ≠ i) :
    (s.move i stage board).stage j = s.stage j :=
  Function.update_of_ne h ..

end Shared

variable {ι : Type} [DecidableEq ι]

/-- The steps of the clients. What comes after the lock is released touches nothing that is shared,
so the reply is part of the last step. -/
inductive Step : Shared ι α → ι × Action α → Shared ι α → Prop
  | count {s : Shared ι α} {i : ι} (bid : Incumbent α) (h : s.stage i = .idle) :
    Step s (i, .count bid) (s.move i (.counted bid) s.board.countOffer)
  | refuse {s : Shared ι α} {i : ι} {bid : Incumbent α} (h : s.stage i = .counted bid)
      (invalid : Scalar.isNaN bid.objective = true) :
    Step s (i, .reply bid false) (s.move i .idle s.board)
  | look {s : Shared ι α} {i : ι} {bid : Incumbent α} (h : s.stage i = .counted bid)
      (valid : Scalar.isNaN bid.objective = false) :
    Step s (i, .look s.board.bestValue) (s.move i (.looked bid s.board.bestValue) s.board)
  | reject {s : Shared ι α} {i : ι} {bid : Incumbent α} {seen : Option α}
      (h : s.stage i = .looked bid seen)
      (worse : s.board.sense.improvesOn seen bid.objective = false) :
    Step s (i, .reply bid false) (s.move i .idle s.board)
  | commit {s : Shared ι α} {i : ι} {bid : Incumbent α} {seen : Option α}
      (h : s.stage i = .looked bid seen)
      (improves : s.board.sense.improvesOn seen bid.objective = true) :
    Step s (i, .reply bid (s.board.commit bid.point bid.objective).1)
      (s.move i .idle (s.board.commit bid.point bid.objective).2)
  | read {s : Shared ι α} (i : ι) : Step s (i, .read s.board.best) s

/-- Steps one after the other, and what the clients did. -/
inductive Steps : Shared ι α → List (ι × Action α) → Shared ι α → Prop
  | nil {s : Shared ι α} : Steps s [] s
  | cons {s m t : Shared ι α} {a : ι × Action α} {rest : List (ι × Action α)} :
    Step s a m → Steps m rest t → Steps s (a :: rest) t

theorem Steps.exists_of_append {s t : Shared ι α} {xs ys : List (ι × Action α)}
    (h : Steps s (xs ++ ys) t) : ∃ m, Steps s xs m ∧ Steps m ys t := by
  induction xs generalizing s with
  | nil => exact ⟨s, .nil, h⟩
  | cons a rest ih =>
    cases h with
    | cons hstep hrest =>
      obtain ⟨m, hxs, hys⟩ := ih hrest
      exact ⟨m, .cons hstep hxs, hys⟩

/-- An offer that nobody interrupts is made in the steps of a client. -/
theorem exists_steps_of_offer {s : Shared ι α} {i : ι} (hidle : s.stage i = .idle)
    (bid : Incumbent α) : ∃ trace t, Steps s trace t ∧
      trace.getLast? = some (i, .reply bid (s.board.offer bid.point bid.objective).1) ∧
      t.board = (s.board.offer bid.point bid.objective).2 := by
  let counted := s.move i (.counted bid) s.board.countOffer
  let looked := counted.move i (.looked bid s.board.bestValue) s.board.countOffer
  have hcount : Step s (i, .count bid) counted := .count bid hidle
  have hcounted : counted.stage i = .counted bid := s.stage_move_self ..
  have hlooked : looked.stage i = .looked bid s.board.bestValue := counted.stage_move_self ..
  have hboard : looked.board.sense.improvesOn s.board.bestValue bid.objective =
    s.board.countOffer.improves bid.objective := rfl
  unfold Scoreboard.offer
  dsimp only
  cases hn : Scalar.isNaN bid.objective with
  | true => exact ⟨_, _, .cons hcount (.cons (.refuse hcounted hn) .nil), rfl, rfl⟩
  | false =>
    have hlook : Step counted (i, .look s.board.bestValue) looked := .look hcounted hn
    cases himproves : s.board.countOffer.improves bid.objective with
    | false =>
      rw [himproves] at hboard
      exact ⟨_, _, .cons hcount (.cons hlook (.cons (.reject hlooked hboard) .nil)), rfl, rfl⟩
    | true =>
      rw [himproves] at hboard
      exact ⟨_, _, .cons hcount (.cons hlook (.cons (.commit hlooked hboard) .nil)), rfl, rfl⟩

/-! ## What the clients were told -/

/-- The offers that were answered, in the order of their replies. -/
def bidsOf (trace : List (ι × Action α)) : List (Incumbent α) :=
  trace.filterMap fun (_, action) =>
    match action with
    | .reply bid _ => some bid
    | _ => none

/-- Number of offers that were counted. -/
def countedIn (trace : List (ι × Action α)) : Nat :=
  trace.countP fun (_, action) =>
    match action with
    | .count _ => true
    | _ => false

/-- Number of offers that were answered with true. -/
def takenIn (trace : List (ι × Action α)) : Nat :=
  trace.countP fun (_, action) =>
    match action with
    | .reply _ taken => taken
    | _ => false

/-- What a step may do to the incumbent: only a reply of true changes it, to the offer that is
answered, and that is strictly better. -/
def Shared.Follows (s : Shared ι α) (sense : Sense) (t : Shared ι α) (action : Action α) : Prop :=
  match action with
  | .reply bid taken => (taken = true ↔ t.board.best ≠ s.board.best) ∧ (taken = true →
      t.board.best = some bid ∧
        ∀ old, s.board.best = some old → sense.better bid.objective old.objective = true)
  | _ => t.board.best = s.board.best

/-- Whether one scoreboard has the incumbent of another one or a strictly better one. -/
def Scoreboard.NoWorseThan (later : Scoreboard α) (sense : Sense) (earlier : Scoreboard α) : Prop :=
  ∀ old, earlier.best = some old → ∃ best, later.best = some best ∧
    (best = old ∨ sense.better best.objective old.objective = true)

/-- What is stored, given what the clients were told. -/
structure Shared.Sound (s : Shared ι α) (sense : Sense) (trace : List (ι × Action α)) : Prop where
  leads : sense.Leads (bidsOf trace) s.board.best
  offers : s.board.offers = countedIn trace
  improvements : s.board.improvements = takenIn trace

/-! ## One step -/

/-- What is known between the steps: a value that was looked at is not better than the incumbent. -/
structure Shared.Coherent (s : Shared ι α) (sense : Sense) : Prop where
  looked : ∀ i bid seen, s.stage i = .looked bid seen → Scalar.isNaN bid.objective = false ∧
    ∀ value, seen = some value → ∃ best, s.board.best = some best ∧
      (best.objective = value ∨ sense.better best.objective value = true)
  sense : s.board.sense = sense

variable [Lawful α] {sense : Sense} {s t : Shared ι α} {i : ι} {action : Action α}
  {trace : List (ι × Action α)}

omit [DecidableEq ι] [Lawful α] in
theorem Shared.coherent_start : (start sense : Shared ι α).Coherent sense where
  looked _ _ _ h := nomatch h
  sense := rfl

omit [DecidableEq ι] in
/-- An offer that does not beat what was looked at does not beat the incumbent. -/
theorem Shared.Coherent.not_improves (h : s.Coherent sense) {bid : Incumbent α} {seen : Option α}
    (hstage : s.stage i = .looked bid seen)
    (hworse : s.board.sense.improvesOn seen bid.objective = false) :
    s.board.improves bid.objective = false := by
  cases seen with
  | none => cases hworse
  | some value =>
    obtain ⟨-, hseen⟩ := h.looked i bid _ hstage
    obtain ⟨best, hbest, hcases⟩ := hseen value rfl
    have hvalue : s.board.bestValue = some best.objective := congrArg (Option.map _) hbest
    rw [h.sense] at hworse
    unfold Scoreboard.improves
    rw [hvalue, h.sense]
    show sense.better bid.objective best.objective = false
    replace hworse : sense.better bid.objective value = false := hworse
    rcases hcases with heq | hbetter
    · rwa [heq]
    · by_contra hbeats
      rw [Bool.not_eq_false] at hbeats
      rw [Sense.better_trans hbeats hbetter] at hworse
      cases hworse

/-- An offer is answered as if it were made in one step at the moment of the reply. It was counted
before. -/
theorem Step.reply_eq_offer (h : s.Coherent sense) {bid : Incumbent α} {taken : Bool}
    (hstep : Step s (i, .reply bid taken) t) :
    taken = (s.board.offer bid.point bid.objective).1 ∧
      t.board.countOffer = (s.board.offer bid.point bid.objective).2 := by
  have hcount : s.board.countOffer.improves bid.objective = s.board.improves bid.objective := rfl
  unfold Scoreboard.offer
  dsimp only
  rw [hcount]
  cases hstep with
  | refuse hstage invalid => exact ⟨by simp [invalid], by simp [invalid, Shared.move]⟩
  | reject hstage worse =>
    have hnot := h.not_improves hstage worse
    exact ⟨by simp [hnot], by simp [hnot, Shared.move]⟩
  | commit hstage improves =>
    obtain ⟨hvalid, -⟩ := h.looked i bid _ hstage
    unfold Scoreboard.commit
    rw [hvalid, hcount]
    cases s.board.improves bid.objective <;> exact ⟨rfl, rfl⟩

omit [Lawful α] in
/-- Only a reply changes the incumbent or the improvements. -/
theorem Step.board_of_not_reply (hstep : Step s (i, action) t)
    (h : ∀ bid taken, action ≠ .reply bid taken) :
    t.board.best = s.board.best ∧ t.board.improvements = s.board.improvements := by
  cases hstep with
  | count | look | read => exact ⟨rfl, rfl⟩
  | refuse | reject | commit => exact absurd rfl (h _ _)

omit [Lawful α] in
theorem Step.board_sense (hstep : Step s (i, action) t) : t.board.sense = s.board.sense := by
  cases hstep with
  | commit =>
    unfold Shared.move Scoreboard.commit
    dsimp only
    split <;> rfl
  | count | look | read | refuse | reject => rfl

/-- Only a reply of true changes the incumbent, and for a strictly better one. -/
theorem Step.follows (h : s.Coherent sense) (hstep : Step s (i, action) t) :
    s.Follows sense t action := by
  cases action with
  | count | look | read =>
    exact (hstep.board_of_not_reply fun _ _ => nofun).1
  | reply bid taken =>
    obtain ⟨htaken, hboard⟩ := hstep.reply_eq_offer h
    have hbest : t.board.best = (s.board.offer bid.point bid.objective).2.best :=
      (congrArg Scoreboard.best hboard :)
    rw [Scoreboard.best_offer, ← htaken] at hbest
    cases taken with
    | false => exact ⟨⟨nofun, fun hne => absurd hbest hne⟩, nofun⟩
    | true =>
      have himproves := ((Scoreboard.offer_fst_iff _ _ _).mp htaken.symm).2
      have hbetter : ∀ old, s.board.best = some old →
          sense.better bid.objective old.objective = true := by
        intro old hold
        unfold Scoreboard.improves Scoreboard.bestValue at himproves
        rw [hold, h.sense] at himproves
        exact himproves
      refine ⟨⟨fun _ hsame => ?_, fun _ => rfl⟩, fun _ => ⟨hbest, hbetter⟩⟩
      -- the offer would be strictly better than itself
      have hself := hbetter bid (hsame ▸ hbest)
      rw [Sense.not_better_self] at hself
      cases hself

/-- A step keeps the incumbent or makes it strictly better. -/
theorem Step.noWorseThan (h : s.Coherent sense) (hstep : Step s (i, action) t) :
    t.board.NoWorseThan sense s.board := by
  intro old hold
  have hfollows := hstep.follows h
  cases action with
  | count | look | read => exact ⟨old, hfollows.trans hold, Or.inl rfl⟩
  | reply bid taken =>
    obtain ⟨hiff, hreplaced⟩ := hfollows
    cases taken with
    | true =>
      obtain ⟨hbest, hbetter⟩ := hreplaced rfl
      exact ⟨bid, hbest, Or.inr (hbetter old hold)⟩
    | false =>
      have hsame : t.board.best = s.board.best := by
        by_contra hne
        exact absurd (hiff.mpr hne) nofun
      exact ⟨old, hsame.trans hold, Or.inl rfl⟩

/-- A value that an incumbent has or beats is one that a later incumbent has or beats. -/
theorem Scoreboard.NoWorseThan.exists_best {later earlier : Scoreboard α} {value : α}
    (h : later.NoWorseThan sense earlier) (hvalue : ∃ best, earlier.best = some best ∧
      (best.objective = value ∨ sense.better best.objective value = true)) :
    ∃ best, later.best = some best ∧
      (best.objective = value ∨ sense.better best.objective value = true) := by
  obtain ⟨old, hold, hle⟩ := hvalue
  obtain ⟨best, hbest, rfl | hbetter⟩ := h old hold
  · exact ⟨best, hbest, hle⟩
  · refine ⟨best, hbest, Or.inr ?_⟩
    rcases hle with rfl | hle
    · exact hbetter
    · exact Sense.better_trans hbetter hle

/-- A client that looked keeps a value that is not better than the incumbent. -/
theorem Shared.Coherent.of_step (h : s.Coherent sense) (hstep : Step s (i, action) t) :
    t.Coherent sense := by
  have hkept := hstep.noWorseThan h
  refine ⟨fun j bid seen hstage => ?_, hstep.board_sense.trans h.sense⟩
  -- the stage is an old one, or this is the step in which the client looks
  have hcases : s.stage j = .looked bid seen ∨
      (Scalar.isNaN bid.objective = false ∧ seen = s.board.bestValue) := by
    cases hstep with
    | read => exact Or.inl hstage
    | look hcounted valid =>
      rcases eq_or_ne j i with rfl | hne
      · rw [stage_move_self] at hstage
        obtain ⟨rfl, rfl⟩ := Stage.looked.inj hstage
        exact Or.inr ⟨valid, rfl⟩
      · rw [stage_move_of_ne _ _ _ _ hne] at hstage
        exact Or.inl hstage
    | count | refuse | reject | commit =>
      rcases eq_or_ne j i with rfl | hne
      · rw [stage_move_self] at hstage
        cases hstage
      · rw [stage_move_of_ne _ _ _ _ hne] at hstage
        exact Or.inl hstage
  rcases hcases with hold | ⟨hvalid, rfl⟩
  · obtain ⟨hvalid, hseen⟩ := h.looked j bid seen hold
    exact ⟨hvalid, fun value hvalue => hkept.exists_best (hseen value hvalue)⟩
  · refine ⟨hvalid, fun value hvalue => hkept.exists_best ?_⟩
    obtain ⟨best, hbest, rfl⟩ := Option.map_eq_some_iff.mp hvalue
    exact ⟨best, hbest, Or.inl rfl⟩

omit [Lawful α] in
theorem Step.offers (hstep : Step s (i, action) t) :
    t.board.offers = s.board.offers + countedIn [(i, action)] := by
  cases hstep with
  | count | look | read | refuse | reject => rfl
  | commit =>
    unfold Shared.move Scoreboard.commit
    dsimp only
    split <;> rfl

/-- A step keeps what is stored in line with what the clients were told. -/
theorem Shared.Sound.of_step (h : s.Sound sense trace) (hs : s.Coherent sense)
    (hstep : Step s (i, action) t) : t.Sound sense (trace ++ [(i, action)]) := by
  have hbids : bidsOf (trace ++ [(i, action)]) = bidsOf trace ++ bidsOf [(i, action)] :=
    List.filterMap_append
  have htaken : takenIn (trace ++ [(i, action)]) = takenIn trace + takenIn [(i, action)] :=
    List.countP_append
  have hcounted : countedIn (trace ++ [(i, action)]) = countedIn trace + countedIn [(i, action)] :=
    List.countP_append
  have hoffers : t.board.offers = countedIn (trace ++ [(i, action)]) := by
    rw [hcounted, hstep.offers, h.offers]
  cases action with
  | count | look | read =>
    obtain ⟨hbest, himprovements⟩ := hstep.board_of_not_reply fun _ _ => nofun
    refine ⟨?_, hoffers, ?_⟩
    · rw [hbids, hbest]
      exact (List.append_nil (bidsOf trace)).symm ▸ h.leads
    · rw [htaken, himprovements]
      exact h.improvements
  | reply bid taken =>
    obtain ⟨hflag, hboard⟩ := hstep.reply_eq_offer hs
    refine ⟨?_, hoffers, ?_⟩
    · have hleads := h.leads
      rw [← hs.sense] at hleads ⊢
      rw [hbids, show t.board.best = _ from (congrArg Scoreboard.best hboard :)]
      exact Scoreboard.leads_offer hleads bid
    · rw [htaken, show t.board.improvements = _ from (congrArg Scoreboard.improvements hboard :),
        Scoreboard.improvements_offer, ← hflag, h.improvements]
      cases taken <;> rfl

/-! ## Any interleaving -/

theorem Shared.Coherent.of_steps (h : s.Coherent sense) (hsteps : Steps s trace t) :
    t.Coherent sense := by
  induction hsteps with
  | nil => exact h
  | cons hstep _ ih => exact ih (h.of_step hstep)

/-- Steps keep the incumbent or make it strictly better. -/
theorem Steps.noWorseThan (h : s.Coherent sense) (hsteps : Steps s trace t) :
    t.board.NoWorseThan sense s.board := by
  induction hsteps with
  | nil => exact fun old hold => ⟨old, hold, Or.inl rfl⟩
  | cons hstep _ ih =>
    intro old hold
    obtain ⟨best, hbest, hle⟩ := hstep.noWorseThan h old hold
    obtain ⟨best', hbest', hle'⟩ := ih (h.of_step hstep) best hbest
    refine ⟨best', hbest', ?_⟩
    rcases hle' with rfl | hbetter
    · exact hle
    · rcases hle with rfl | hle
      · exact Or.inr hbetter
      · exact Or.inr (Sense.better_trans hbetter hle)

theorem Shared.Sound.of_steps (h : s.Sound sense trace) (hs : s.Coherent sense)
    {more : List (ι × Action α)} (hsteps : Steps s more t) : t.Sound sense (trace ++ more) := by
  induction hsteps generalizing trace with
  | nil => rwa [List.append_nil]
  | cons hstep _ ih =>
    rw [List.append_cons]
    exact ih (h.of_step hs hstep) (hs.of_step hstep)

omit [Lawful α] in
/-- Two clients look before there is an incumbent. Whoever commits later is compared with the other
one, although it saw nothing, and is turned down if it is not strictly better. -/
theorem exists_steps_of_race (first second : Incumbent α)
    (hfirst : Scalar.isNaN first.objective = false)
    (hsecond : Scalar.isNaN second.objective = false)
    (hlate : sense.better second.objective first.objective = false) :
    ∃ s : Shared Bool α, s.board.best = some first ∧ Steps (.start sense)
      [(false, .count second), (true, .count first), (false, .look none), (true, .look none),
        (true, .reply first true), (false, .reply second false)] s := by
  let start : Shared Bool α := .start sense
  let counted := (start.move false (.counted second) start.board.countOffer).move true
    (.counted first) start.board.countOffer.countOffer
  let looked := (counted.move false (.looked second none) counted.board).move true
    (.looked first none) counted.board
  let committed := looked.move true .idle (looked.board.commit first.point first.objective).2
  have hcommit : Step committed (false, .reply second false)
      (committed.move false .idle committed.board) := by
    have hstage : committed.stage false = .looked second none := rfl
    have hnot : committed.board.commit second.point second.objective = (false, committed.board) :=
      if_neg (Bool.eq_false_iff.mp hlate)
    have hstep := Step.commit hstage rfl
    rwa [hnot] at hstep
  exact ⟨_, rfl, .cons (.count second rfl) <| .cons (.count first rfl) <|
    .cons (.look rfl hsecond) <| .cons (.look rfl hfirst) <| .cons (.commit rfl rfl) <|
    .cons hcommit .nil⟩

/-- However the offers and reads of any number of clients interleave, nothing is lost. At every
moment the first of the best offers that were answered is stored with its point, and the counters
count the offers and the replies of true. A reply is true if and only if the offer replaced the
incumbent, which was strictly worse. The incumbent is kept or gets strictly better. A read gives
what led at its moment, whatever is offered later. -/
theorem offers_interleave (hsteps : Steps (.start sense) trace s) :
    s.Sound sense trace ∧
    (∀ i action t, Step s (i, action) t → s.Follows sense t action) ∧
    (∀ more t, Steps s more t → t.board.NoWorseThan sense s.board) ∧
    ∀ before i seen after, trace = before ++ (i, .read seen) :: after →
      sense.Leads (bidsOf before) seen := by
  have hstart : (Shared.start sense : Shared ι α).Sound sense [] :=
    ⟨fun _ h => absurd h List.not_mem_nil, rfl, rfl⟩
  have hs := Shared.coherent_start.of_steps hsteps
  refine ⟨hstart.of_steps Shared.coherent_start hsteps, fun _ _ _ hstep => hstep.follows hs,
    fun _ _ hmore => hmore.noWorseThan hs, ?_⟩
  rintro before i seen after rfl
  obtain ⟨m, hbefore, hafter⟩ := hsteps.exists_of_append
  have hm := hstart.of_steps Shared.coherent_start hbefore
  cases hafter with
  | cons hread _ =>
    cases hread
    exact hm.leads

/-- Two points of the same value: the one that is committed first stays. -/
theorem offers_interleave_tie : ∃ (trace : List (Bool × Action Float)) (s : Shared Bool Float),
    Steps (.start .minimise) trace s ∧ s.Sound .minimise trace ∧ s.board.offers = 2 ∧
      s.board.improvements = 1 ∧ s.board.best = some ⟨#[2.0], 3.0⟩ ∧
      Sense.minimise.Leads [⟨#[2.0], 3.0⟩, ⟨#[1.0], 3.0⟩] (some ⟨#[2.0], (3.0 : Float)⟩) := by
  have hvalid : Scalar.isNaN (3.0 : Float) = false := by decide +kernel
  obtain ⟨s, hbest, hsteps⟩ := exists_steps_of_race ⟨#[2.0], 3.0⟩ ⟨#[1.0], 3.0⟩ hvalid hvalid
    (Sense.minimise.not_better_self 3.0)
  obtain ⟨hsound, -⟩ := offers_interleave hsteps
  have hleads := hsound.leads
  rw [hbest] at hleads
  exact ⟨_, s, hsteps, hsound, hsound.offers, hsound.improvements, hbest, hleads⟩

end BranchBound
