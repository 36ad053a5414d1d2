import Deduction.Batch.Pool
import Deduction.Proofs.Json.RoundTrip
import Deduction.Proofs.Outcome
import Mathlib

/-!
# Schedules of a worker pool

However the steps of the workers are interleaved, every request of a batch is taken,
counted, handled, tallied and answered once, by one worker after the other. The account
of a pool says which requests have come how far: those whose responses are stored, and
those that a worker still holds. Once all workers are done nothing is held, and what has
been stored is everything.
-/

namespace Deduction.Batch

namespace Phase

/-- The request that a worker holds. -/
def held : Phase → List Nat
  | ready => []
  | taken index _ => [index]
  | counted index _ => [index]
  | handled index _ => [index]
  | tallied index _ => [index]
  | finished => []

/-- How many steps a worker has made on the request that it holds. -/
def stage : Phase → Nat
  | ready => 0
  | taken _ _ => 1
  | counted _ _ => 2
  | handled _ _ => 3
  | tallied _ _ => 4
  | finished => 0

/-- The request that a worker holds, if it has made enough steps on it. -/
def past (k : Nat) (phase : Phase) : List Nat := if k ≤ phase.stage then phase.held else []

@[simp] theorem past_ready (k : Nat) : past k ready = [] := ite_self _

@[simp] theorem past_finished (k : Nat) : past k finished = [] := ite_self _

@[simp] theorem past_taken (k index : Nat) (line : String) :
    past k (taken index line) = if k ≤ 1 then [index] else [] := rfl

@[simp] theorem past_tallied (k index : Nat) (outcome : Outcome Json) :
    past k (tallied index outcome) = if k ≤ 4 then [index] else [] := rfl

/-- Whether what a worker holds belongs to its request. A worker is done only if no request is
left. -/
def Fits (requests : List String) (next : Nat) : Phase → Prop
  | ready => True
  | taken index line => requests[index]? = some line
  | counted index line => requests[index]? = some line
  | handled index outcome => (requests[index]?).map Request.handle = some outcome
  | tallied index outcome => (requests[index]?).map Request.handle = some outcome
  | finished => requests.length ≤ next

/-- A bound on the number of steps that a worker has still to make: it may take all requests that
are waiting. -/
def left (waiting : Nat) : Phase → Nat
  | ready => 5 * waiting + 1
  | taken _ _ => 5 * waiting + 5
  | counted _ _ => 5 * waiting + 4
  | handled _ _ => 5 * waiting + 3
  | tallied _ _ => 5 * waiting + 2
  | finished => 0

private theorem left_mono {waiting waiting' : Nat} (h : waiting' ≤ waiting) (phase : Phase) :
    phase.left waiting' ≤ phase.left waiting := by
  cases phase <;> simp only [left] <;> omega

private theorem eq_finished_of_left {waiting : Nat} {phase : Phase} (h : phase.left waiting = 0) :
    phase = finished := by
  cases phase with
  | finished => rfl
  | _ => cases h

end Phase

namespace Pool

variable {requests : List String} {p : Pool} {worker k : Nat} {old new : Phase}

/-- The requests that are held by a worker which has made enough steps on them. -/
def past (p : Pool) (k : Nat) : List Nat := p.workers.flatMap (Phase.past k)

/-- A worker that moves on lets go of what it had and holds something new. -/
theorem past_setPhase (h : p.workers[worker]? = some old) (new : Phase) (k : Nat) :
    (old.past k ++ (p.setPhase worker new).past k).Perm (new.past k ++ p.past k) := by
  obtain ⟨hlt, rfl⟩ := List.getElem?_eq_some_iff.mp h
  have hbefore := (List.getElem_cons_eraseIdx_perm hlt).symm.flatMap_right (Phase.past k)
  have hafter := (List.set_perm_cons_eraseIdx hlt new).flatMap_right (Phase.past k)
  rw [List.flatMap_cons] at hbefore hafter
  calc
    (p.workers[worker].past k ++ (p.setPhase worker new).past k).Perm
        (p.workers[worker].past k ++ (new.past k ++ (p.workers.eraseIdx worker).flatMap _)) :=
      hafter.append_left _
    List.Perm _ (new.past k ++
        (p.workers[worker].past k ++ (p.workers.eraseIdx worker).flatMap _)) := by
      rw [← List.append_assoc, ← List.append_assoc]
      exact List.perm_append_comm.append_right _
    List.Perm _ (new.past k ++ p.past k) := hbefore.symm.append_left _

/-- A worker that makes the next step on its request is past that step. -/
theorem past_setPhase_advance {i : Nat} (new : Phase) (h : p.workers[worker]? = some old)
    (hold : old.held = [i]) (hnew : new.held = [i]) (hstage : new.stage = old.stage + 1) (k : Nat) :
    ((p.setPhase worker new).past k).Perm
      (if k = new.stage then i :: p.past k else p.past k) := by
  have hmoved := past_setPhase h new k
  rw [Phase.past, Phase.past, hold, hnew] at hmoved
  split
  next hk =>
    rwa [if_neg (by omega), if_pos (by omega)] at hmoved
  next hk =>
    have hsame : k ≤ old.stage ↔ k ≤ new.stage := by omega
    simp only [hsame] at hmoved
    exact (List.perm_append_left_iff _).mp hmoved

/-- A worker that takes a request holds it. -/
theorem past_setPhase_taken {i : Nat} {line : String} (h : p.workers[worker]? = some .ready)
    (k : Nat) : ((p.setPhase worker (.taken i line)).past k).Perm
      (if k ≤ 1 then i :: p.past k else p.past k) := by
  have hmoved := past_setPhase h (.taken i line) k
  rw [Phase.past_ready, Phase.past_taken] at hmoved
  split at hmoved
  next hk => rwa [if_pos hk]
  next hk => rwa [if_neg hk]

/-- A worker that has stored a response holds nothing more. -/
theorem past_setPhase_ready {i : Nat} {outcome : Outcome Json}
    (h : p.workers[worker]? = some (.tallied i outcome)) (hk : k ≤ 4) :
    (i :: (p.setPhase worker .ready).past k).Perm (p.past k) := by
  have hmoved := past_setPhase h .ready k
  rwa [Phase.past_ready, Phase.past_tallied, if_pos hk] at hmoved

/-- A worker that finds no more requests held none. -/
theorem past_setPhase_finished (h : p.workers[worker]? = some .ready) (k : Nat) :
    ((p.setPhase worker .finished).past k).Perm (p.past k) := by
  have hmoved := past_setPhase h .finished k
  rwa [Phase.past_ready, Phase.past_finished] at hmoved

/-- The outcomes of the requests at some positions. -/
def outcomes (requests : List String) (ids : List Nat) : List (Outcome Json) :=
  ids.filterMap fun i => (requests[i]?).map Request.handle

/-- The response to a request. -/
def answer (line : String) : String := (Request.respond (Request.handle line)).render

/-- Counters after some requests have been counted and the outcomes of some have. -/
def counters (counted : Nat) (outcomes : List (Outcome Json)) : Statistics where
  requests := .ofNat counted
  accepted := .ofNat (outcomes.countP Except.isOk)
  rejected := .ofNat (outcomes.countP fun outcome => !outcome.isOk)

/-- The account of a pool: which requests have been handled and which responses have been
stored. -/
structure Account (requests : List String) (p : Pool) (handled stored : List Nat) : Prop where
  /-- Workers hold what belongs to their requests. -/
  fits : ∀ phase ∈ p.workers, phase.Fits requests p.next
  /-- No more requests are taken than there are. -/
  next_le : p.next ≤ requests.length
  /-- The requests up to the next one are stored or held, each of them once. -/
  taken : (stored ++ p.past 1).Perm (List.range p.next)
  /-- A request is handled in the third step. -/
  handled : handled.Perm (stored ++ p.past 3)
  /-- It is counted in the second step, and its outcome is in the fourth. -/
  statistics : p.statistics =
    counters (stored ++ p.past 2).length (outcomes requests (stored ++ p.past 4))
  /-- There is a place for every response. -/
  length : p.responses.length = requests.length
  /-- The responses that are stored are those to the requests in their places. -/
  answered : ∀ i ∈ stored, p.responses[i]? = (requests[i]?).map answer

/-- Counters do not depend on the order of the requests. -/
theorem counters_congr {ids ids' ids₄ ids₄' : List Nat} (h : ids.Perm ids')
    (h₄ : ids₄.Perm ids₄') : counters ids.length (outcomes requests ids₄) =
      counters ids'.length (outcomes requests ids₄') := by
  have houtcomes : (outcomes requests ids₄).Perm (outcomes requests ids₄') := h₄.filterMap _
  rw [counters, counters, h.length_eq, houtcomes.countP_eq, houtcomes.countP_eq]

private theorem addRequest_counters (n : Nat) (os : List (Outcome Json)) :
    (counters n os).addRequest = counters (n + 1) os := by
  simp [counters, Statistics.addRequest, UInt32.ofNat_add]

theorem statistics_tally {q : Pool} {n i : Nat} {os : List (Outcome Json)}
    (h : q.statistics = counters n os) (worker : Nat) (outcome : Outcome Json) :
    (q.tally worker i outcome).statistics = counters n (outcome :: os) := by
  rw [counters, List.countP_cons, List.countP_cons]
  cases outcome with
  | error e =>
    rw [tally, h]
    simp [counters, Statistics.addRejected, Except.isOk, Except.toBool, UInt32.ofNat_add]
  | ok v =>
    rw [tally, h]
    simp [counters, Statistics.addAccepted, Except.isOk, Except.toBool, UInt32.ofNat_add]

theorem fits_setPhase {next : Nat} (h : ∀ phase ∈ p.workers, phase.Fits requests p.next)
    (hnext : p.next ≤ next) (hnew : new.Fits requests next) :
    ∀ phase ∈ (p.setPhase worker new).workers, phase.Fits requests next := by
  intro phase hphase
  rcases List.mem_or_eq_of_mem_set hphase with hphase | rfl
  · have hfits := h phase hphase
    cases phase with
    | finished => exact Nat.le_trans hfits hnext
    | _ => exact hfits
  · exact hnew

namespace Account

variable {log stored : List Nat} {i : Nat} {line : String} {outcome : Outcome Json}

theorem fits_of_getElem? (h : Account requests p log stored)
    (hold : p.workers[worker]? = some old) : old.Fits requests p.next :=
  h.fits old (List.mem_of_getElem? hold)

/-- A worker takes the next request. -/
theorem take (h : Account requests p log stored) (hold : p.workers[worker]? = some .ready)
    (hline : requests[p.next]? = some line) :
    Account requests { p.setPhase worker (.taken p.next line) with next := p.next + 1 } log
      stored where
  fits := fits_setPhase h.fits (Nat.le_succ _) hline
  next_le := (List.getElem?_eq_some_iff.mp hline).1
  taken := by
    rw [List.range_succ]
    calc
      (stored ++ (p.setPhase worker (.taken p.next line)).past 1).Perm
          (stored ++ p.next :: p.past 1) := (past_setPhase_taken hold 1).append_left stored
      List.Perm _ (p.next :: (stored ++ p.past 1)) := List.perm_middle
      List.Perm _ (p.next :: List.range p.next) := h.taken.cons _
      List.Perm _ (List.range p.next ++ [p.next]) := (List.perm_append_singleton _ _).symm
  handled := h.handled.trans ((past_setPhase_taken hold 3).symm.append_left stored)
  statistics := h.statistics.trans (counters_congr
    ((past_setPhase_taken hold 2).symm.append_left stored)
    ((past_setPhase_taken hold 4).symm.append_left stored))
  length := h.length
  answered := h.answered

/-- A worker finds no more requests. -/
theorem finish (h : Account requests p log stored) (hold : p.workers[worker]? = some .ready)
    (hnone : requests[p.next]? = none) :
    Account requests (p.setPhase worker .finished) log stored where
  fits := fits_setPhase h.fits (Nat.le_refl _) (List.getElem?_eq_none_iff.mp hnone)
  next_le := h.next_le
  taken := ((past_setPhase_finished hold 1).append_left stored).trans h.taken
  handled := h.handled.trans ((past_setPhase_finished hold 3).symm.append_left stored)
  statistics := h.statistics.trans (counters_congr
    ((past_setPhase_finished hold 2).symm.append_left stored)
    ((past_setPhase_finished hold 4).symm.append_left stored))
  length := h.length
  answered := h.answered

/-- A worker counts its request. -/
theorem count (h : Account requests p log stored)
    (hold : p.workers[worker]? = some (.taken i line)) :
    Account requests { p.setPhase worker (.counted i line) with
      statistics := p.statistics.addRequest } log stored := by
  have hpast := past_setPhase_advance (.counted i line) hold rfl rfl rfl
  have hline : requests[i]? = some line := h.fits_of_getElem? hold
  refine ⟨fits_setPhase h.fits (Nat.le_refl _) hline, h.next_le, ?_, ?_, ?_, h.length, h.answered⟩
  · exact ((hpast 1).append_left stored).trans h.taken
  · exact h.handled.trans ((hpast 3).symm.append_left stored)
  · have hcounted : (stored ++ (p.setPhase worker (.counted i line)).past 2).Perm
        (i :: (stored ++ p.past 2)) := ((hpast 2).append_left stored).trans List.perm_middle
    rw [h.statistics, addRequest_counters, ← List.length_cons (a := i)]
    exact counters_congr hcounted.symm ((hpast 4).symm.append_left stored)

/-- A worker handles its request. -/
theorem handle (h : Account requests p log stored)
    (hold : p.workers[worker]? = some (.counted i line)) :
    Account requests (p.setPhase worker (.handled i (Request.handle line))) (log ++ [i])
      stored := by
  have hpast := past_setPhase_advance (.handled i (Request.handle line)) hold rfl rfl rfl
  have hline : requests[i]? = some line := h.fits_of_getElem? hold
  refine ⟨fits_setPhase h.fits (Nat.le_refl _) (congrArg _ hline), h.next_le, ?_, ?_, ?_, h.length,
    h.answered⟩
  · exact ((hpast 1).append_left stored).trans h.taken
  · calc
      (log ++ [i]).Perm (i :: log) := List.perm_append_singleton i log
      List.Perm _ (i :: (stored ++ p.past 3)) := h.handled.cons i
      List.Perm _ (stored ++ i :: p.past 3) := List.perm_middle.symm
      List.Perm _ (stored ++ _) := (hpast 3).symm.append_left stored
  · exact h.statistics.trans (counters_congr ((hpast 2).symm.append_left stored)
      ((hpast 4).symm.append_left stored))

/-- A worker counts the outcome of its request. -/
theorem tally (h : Account requests p log stored)
    (hold : p.workers[worker]? = some (.handled i outcome)) :
    Account requests ((p.setPhase worker (.tallied i outcome)).tally worker i outcome) log
      stored := by
  have hpast := past_setPhase_advance (.tallied i outcome) hold rfl rfl rfl
  have hline : (requests[i]?).map Request.handle = some outcome := h.fits_of_getElem? hold
  have hstatistics := statistics_tally (q := p.setPhase worker (.tallied i outcome)) (i := i)
    h.statistics worker outcome
  -- Of the rest of the pool only the list of rejections changes.
  have hrest : ∃ s r, (p.setPhase worker (.tallied i outcome)).tally worker i outcome =
      { p.setPhase worker (.tallied i outcome) with statistics := s, rejections := r } := by
    cases outcome <;> exact ⟨_, _, rfl⟩
  obtain ⟨s, r, hrest⟩ := hrest
  rw [hrest] at hstatistics ⊢
  refine ⟨fits_setPhase h.fits (Nat.le_refl _) hline, h.next_le, ?_, ?_, ?_, h.length, h.answered⟩
  · exact ((hpast 1).append_left stored).trans h.taken
  · exact h.handled.trans ((hpast 3).symm.append_left stored)
  · have htallied : (i :: (stored ++ p.past 4)).Perm
        (stored ++ (p.setPhase worker (.tallied i outcome)).past 4) :=
      List.perm_middle.symm.trans ((hpast 4).symm.append_left stored)
    have houtcome : outcome :: outcomes requests (stored ++ p.past 4) =
        outcomes requests (i :: (stored ++ p.past 4)) := by
      rw [outcomes, outcomes, List.filterMap_cons, hline]
    rw [houtcome] at hstatistics
    exact hstatistics.trans (counters_congr ((hpast 2).symm.append_left stored) htallied)

/-- A worker stores the response to its request. -/
theorem store (h : Account requests p log stored)
    (hold : p.workers[worker]? = some (.tallied i outcome)) :
    Account requests { p.setPhase worker .ready with
      responses := p.responses.set i (Request.respond outcome).render } log (i :: stored) := by
  have hpast {k : Nat} (hk : k ≤ 4) :
      (i :: stored ++ (p.setPhase worker .ready).past k).Perm (stored ++ p.past k) :=
    List.perm_middle.symm.trans ((past_setPhase_ready hold hk).append_left stored)
  have hline : (requests[i]?).map Request.handle = some outcome := h.fits_of_getElem? hold
  refine ⟨fits_setPhase h.fits (Nat.le_refl _) trivial, h.next_le, ?_, ?_, ?_, ?_, ?_⟩
  · exact (hpast (by decide)).trans h.taken
  · exact h.handled.trans (hpast (by decide)).symm
  · exact h.statistics.trans (counters_congr (hpast (by decide)).symm (hpast (by decide)).symm)
  · exact (List.length_set).trans h.length
  · intro j hj
    by_cases hij : i = j
    · subst hij
      obtain ⟨line, hget, rfl⟩ := Option.map_eq_some_iff.mp hline
      have hlt : i < p.responses.length := h.length ▸ (List.getElem?_eq_some_iff.mp hget).1
      rw [List.getElem?_set_self hlt, hget]
      rfl
    · rw [List.getElem?_set_ne hij]
      exact h.answered j ((List.mem_cons.mp hj).resolve_left (Ne.symm hij))

end Account

/-- The request that the next step of a worker handles. -/
def handling (p : Pool) (worker : Nat) : List Nat :=
  match p.workers[worker]? with
  | some (.counted index _) => [index]
  | _ => []

/-- The requests that are handled along a schedule, in the order in which they are. -/
def handlings (requests : List String) : Pool → List Nat → List Nat
  | _, [] => []
  | p, worker :: schedule =>
    p.handling worker ++ handlings requests (p.step requests worker) schedule

variable {log stored : List Nat}

/-- Every step of a worker is booked. -/
theorem Account.step (h : Account requests p log stored) (worker : Nat) :
    ∃ stored', Account requests (p.step requests worker) (log ++ p.handling worker) stored' := by
  cases hold : p.workers[worker]? with
  | none => exact ⟨stored, by simpa [Pool.step, handling, hold] using h⟩
  | some phase =>
    rw [Pool.step, handling, hold]
    cases phase with
    | ready =>
      simp only [List.append_nil]
      split
      next hline => exact ⟨stored, h.take hold hline⟩
      next hnone => exact ⟨stored, h.finish hold hnone⟩
    | taken i line => exact ⟨stored, (List.append_nil log).symm ▸ h.count hold⟩
    | counted i line => exact ⟨stored, h.handle hold⟩
    | handled i outcome => exact ⟨stored, (List.append_nil log).symm ▸ h.tally hold⟩
    | tallied i outcome => exact ⟨i :: stored, (List.append_nil log).symm ▸ h.store hold⟩
    | finished => exact ⟨stored, (List.append_nil log).symm ▸ h⟩

/-- So is every schedule. -/
theorem Account.run (h : Account requests p log stored) (schedule : List Nat) :
    ∃ stored', Account requests (p.run requests schedule)
      (log ++ handlings requests p schedule) stored' := by
  induction schedule generalizing p log stored with
  | nil => exact ⟨stored, (List.append_nil log).symm ▸ h⟩
  | cons worker schedule ih =>
    obtain ⟨stored', h'⟩ := h.step worker
    rw [handlings, ← List.append_assoc]
    exact ih h'

theorem past_initial (requests : List String) (jobs k : Nat) :
    (initial requests jobs).past k = [] := by
  simp [past, initial, List.flatMap_replicate]

theorem account_initial (requests : List String) (jobs : Nat) :
    Account requests (initial requests jobs) [] [] where
  fits phase hphase := by
    rw [List.eq_of_mem_replicate hphase]
    trivial
  next_le := Nat.zero_le _
  taken := by
    rw [past_initial]
    exact .refl _
  handled := by
    rw [past_initial]
    exact .refl _
  statistics := by
    rw [past_initial, past_initial]
    rfl
  length := List.length_replicate
  answered i hi := absurd hi List.not_mem_nil

theorem past_of_isFinished (h : p.isFinished = true) (k : Nat) : p.past k = [] := by
  refine List.flatMap_eq_nil_iff.mpr fun phase hphase => ?_
  have hdone := List.all_eq_true.mp h phase hphase
  cases phase with
  | finished => exact Phase.past_finished k
  | _ => cases hdone

/-- A step changes the phase of the worker that makes it, brings that worker closer to its end and
puts no request back. -/
theorem exists_step_eq (requests : List String) (h : p.workers[worker]? = some old) :
    ∃ new, (p.step requests worker).workers = p.workers.set worker new ∧
      p.next ≤ (p.step requests worker).next ∧
      new.left (requests.length - (p.step requests worker).next) ≤
        old.left (requests.length - p.next) - 1 := by
  rw [step, h]
  cases old with
  | ready =>
    dsimp only
    split
    next hline =>
      have hlt := (List.getElem?_eq_some_iff.mp hline).1
      refine ⟨_, rfl, Nat.le_succ _, ?_⟩
      simp only [Phase.left]
      omega
    next => exact ⟨_, rfl, Nat.le_refl _, Nat.zero_le _⟩
  | taken i line => exact ⟨_, rfl, Nat.le_refl _, Nat.le_refl _⟩
  | counted i line => exact ⟨_, rfl, Nat.le_refl _, Nat.le_refl _⟩
  | handled i outcome => cases outcome <;> exact ⟨_, rfl, Nat.le_refl _, Nat.le_refl _⟩
  | tallied i outcome => exact ⟨_, rfl, Nat.le_refl _, Nat.le_refl _⟩
  | finished =>
    obtain ⟨hlt, heq⟩ := List.getElem?_eq_some_iff.mp h
    exact ⟨_, (List.set_getElem_self hlt).symm, Nat.le_refl _, by rw [heq]; exact Nat.zero_le _⟩

theorem step_of_getElem?_eq_none (requests : List String) (h : p.workers[worker]? = none) :
    p.step requests worker = p := by
  rw [step, h]

theorem length_workers_step (requests : List String) (p : Pool) (worker : Nat) :
    (p.step requests worker).workers.length = p.workers.length := by
  cases hold : p.workers[worker]? with
  | none => rw [step_of_getElem?_eq_none requests hold]
  | some old =>
    obtain ⟨new, hworkers, -⟩ := exists_step_eq requests hold
    rw [hworkers, List.length_set]

theorem length_workers_run (requests : List String) (p : Pool) (schedule : List Nat) :
    (p.run requests schedule).workers.length = p.workers.length := by
  induction schedule generalizing p with
  | nil => rfl
  | cons worker schedule ih =>
    exact (ih (p.step requests worker)).trans (length_workers_step requests p worker)

theorem length_workers_initial_pos (requests : List String) (jobs : Nat) :
    0 < (initial requests jobs).workers.length := by
  simp only [initial, List.length_replicate]
  omega

/-- Once a worker is done all requests have been taken. -/
theorem Account.next_eq (h : Account requests p log stored) (hdone : p.isFinished = true)
    (hworkers : 0 < p.workers.length) : p.next = requests.length := by
  obtain ⟨phase, hphase⟩ := List.exists_mem_of_length_pos hworkers
  have hphase_done := List.all_eq_true.mp hdone phase hphase
  have hfits := h.fits phase hphase
  cases phase with
  | finished => exact Nat.le_antisymm h.next_le hfits
  | _ => cases hphase_done

private theorem filterMap_range_getElem? {α : Type} (xs : List α) :
    (List.range xs.length).filterMap (fun i => xs[i]?) = xs := by
  induction xs with
  | nil => rfl
  | cons x xs ih => simpa [List.range_succ_eq_map, List.filterMap_map, Function.comp_def] using ih

/-- The outcomes of all requests. -/
theorem outcomes_range (requests : List String) :
    outcomes requests (List.range requests.length) = requests.map Request.handle := by
  rw [outcomes, ← List.map_filterMap, filterMap_range_getElem?]

/-- Once all workers are done everything is stored, and the counters have been brought up to
date. -/
theorem Account.of_isFinished (h : Account requests p log stored) (hdone : p.isFinished = true)
    (hworkers : 0 < p.workers.length) :
    p.responses = requests.map answer ∧ log.Perm (List.range requests.length) ∧
      p.statistics = counters requests.length (requests.map Request.handle) := by
  have hall : stored.Perm (List.range requests.length) := by
    have htaken := h.taken
    rwa [past_of_isFinished hdone, List.append_nil, h.next_eq hdone hworkers] at htaken
  refine ⟨?_, ?_, ?_⟩
  · refine List.ext_getElem? fun i => ?_
    rw [List.getElem?_map]
    by_cases hi : i < requests.length
    · exact h.answered i (hall.mem_iff.mpr (List.mem_range.mpr hi))
    · rw [List.getElem?_eq_none (by rw [h.length]; omega), List.getElem?_eq_none (by omega)]
      rfl
  · have hhandled := h.handled
    rw [past_of_isFinished hdone, List.append_nil] at hhandled
    exact hhandled.trans hall
  · have hstatistics := h.statistics
    rw [past_of_isFinished hdone, past_of_isFinished hdone, List.append_nil,
      counters_congr hall hall, outcomes_range, List.length_range] at hstatistics
    exact hstatistics

/-- A bound on the number of steps that the worker with a number has still to make. -/
def remaining (requests : List String) (p : Pool) (worker : Nat) : Nat :=
  (p.workers[worker]?).elim 0 (Phase.left (requests.length - p.next))

/-- A step brings the worker that makes it closer to its end, and no other one farther away. -/
theorem remaining_step (requests : List String) (p : Pool) (worker other : Nat) :
    remaining requests (p.step requests worker) other ≤
      remaining requests p other - if worker = other then 1 else 0 := by
  cases hold : p.workers[worker]? with
  | none =>
    rw [step_of_getElem?_eq_none requests hold]
    split
    next heq => simp [remaining, ← heq, hold]
    next => exact Nat.le_refl _
  | some old =>
    obtain ⟨new, hworkers, hnext, hleft⟩ := exists_step_eq requests hold
    rw [remaining, hworkers, remaining]
    split
    next heq =>
      subst heq
      rw [List.getElem?_set_self (List.getElem?_eq_some_iff.mp hold).1, hold]
      exact hleft
    next hne =>
      rw [List.getElem?_set_ne hne]
      cases p.workers[other]? with
      | none => exact Nat.le_refl _
      | some phase => exact phase.left_mono (Nat.sub_le_sub_left hnext _)

/-- Each step of a worker along a schedule brings it closer to its end. -/
theorem remaining_run (requests : List String) (p : Pool) (schedule : List Nat) (worker : Nat) :
    remaining requests (p.run requests schedule) worker ≤
      remaining requests p worker - schedule.count worker := by
  induction schedule generalizing p with
  | nil => exact Nat.le_refl _
  | cons first schedule ih =>
    have hstep := remaining_step requests p first worker
    have hrest := ih (p.step requests first)
    rw [List.count_cons]
    simp only [beq_iff_eq]
    change remaining requests ((p.step requests first).run requests schedule) worker ≤ _
    omega

theorem isFinished_of_remaining (h : ∀ worker, remaining requests p worker = 0) :
    p.isFinished = true := by
  refine List.all_eq_true.mpr fun phase hphase => ?_
  obtain ⟨worker, hworker⟩ := List.getElem?_of_mem hphase
  have hleft := h worker
  rw [remaining, hworker] at hleft
  rw [Phase.eq_finished_of_left hleft]

/-- Taking turns for as many rounds as a worker has steps to make finishes all of them. -/
theorem isFinished_runRounds {rounds : Nat}
    (h : ∀ worker, remaining requests p worker ≤ rounds) :
    (p.runRounds requests rounds).isFinished = true := by
  induction rounds generalizing p with
  | zero => exact isFinished_of_remaining fun worker => Nat.le_zero.mp (h worker)
  | succ rounds ih =>
    rw [runRounds]
    split
    next hdone => exact hdone
    next =>
      refine ih fun worker => ?_
      by_cases hlt : worker < p.workers.length
      · have hturn : 0 < (List.range p.workers.length).count worker :=
          List.count_pos_iff.mpr (List.mem_range.mpr hlt)
        have hrun := remaining_run requests p (List.range p.workers.length) worker
        have hbound := h worker
        omega
      · have hnone : (p.run requests (List.range p.workers.length)).workers[worker]? = none := by
          rw [List.getElem?_eq_none_iff, length_workers_run]
          omega
        rw [remaining, hnone]
        exact Nat.zero_le _

/-- Taking turns is a schedule. -/
theorem exists_runRounds_eq (requests : List String) (rounds : Nat) (p : Pool) :
    ∃ schedule, p.runRounds requests rounds = p.run requests schedule := by
  induction rounds generalizing p with
  | zero => exact ⟨[], rfl⟩
  | succ rounds ih =>
    rw [runRounds]
    split
    next => exact ⟨[], rfl⟩
    next =>
      obtain ⟨schedule, hschedule⟩ := ih (p.run requests (List.range p.workers.length))
      refine ⟨List.range p.workers.length ++ schedule, ?_⟩
      rw [hschedule, run, run, run, List.foldl_append]

theorem remaining_le (requests : List String) (p : Pool) (worker : Nat) :
    remaining requests p worker ≤ 5 * requests.length + 5 := by
  rw [remaining]
  cases p.workers[worker]? with
  | none => exact Nat.zero_le _
  | some phase =>
    cases phase <;> simp only [Option.elim, Phase.left] <;> omega

theorem remaining_initial (requests : List String) (jobs worker : Nat) :
    remaining requests (initial requests jobs) worker ≤ 5 * requests.length + 1 := by
  rw [remaining, initial]
  simp only [List.getElem?_replicate]
  split
  · exact Nat.le_refl _
  · exact Nat.zero_le _

end Pool

/-- A batch is answered in the same way whatever the schedule: once all workers are done, every
response is the one to the request in its place, every request has been handled once, and the
counters, of 32 bits each, tell the numbers of all, of the accepted and of the rejected requests.
Every schedule can be continued until all workers are done, and they are after the rounds in which a
batch is run. -/
theorem answers_independent_of_schedule (requests : List String) (jobs : Nat) :
    (∀ schedule, ((Pool.initial requests jobs).run requests schedule).isFinished = true →
      ((Pool.initial requests jobs).run requests schedule).responses =
        requests.map (fun line => (Request.respond (Request.handle line)).render) ∧
      (Pool.handlings requests (.initial requests jobs) schedule).Perm
        (List.range requests.length) ∧
      ((Pool.initial requests jobs).run requests schedule).statistics =
        { requests := .ofNat requests.length
          accepted := .ofNat (requests.countP fun line => (Request.handle line).isOk)
          rejected := .ofNat (requests.countP fun line => !(Request.handle line).isOk) }) ∧
    (∀ schedule, ∃ more,
      ((Pool.initial requests jobs).run requests (schedule ++ more)).isFinished = true) ∧
    (process requests jobs).isFinished = true ∧
    ∃ schedule, process requests jobs = (Pool.initial requests jobs).run requests schedule := by
  refine ⟨fun schedule hdone => ?_, fun schedule => ?_, ?_, ?_⟩
  · obtain ⟨stored, haccount⟩ := (Pool.account_initial requests jobs).run schedule
    have hworkers : 0 < ((Pool.initial requests jobs).run requests schedule).workers.length := by
      rw [Pool.length_workers_run]
      exact Pool.length_workers_initial_pos requests jobs
    obtain ⟨hresponses, hhandled, hstatistics⟩ := haccount.of_isFinished hdone hworkers
    refine ⟨hresponses, hhandled, hstatistics.trans ?_⟩
    rw [Pool.counters, List.countP_map, List.countP_map]
    rfl
  · obtain ⟨more, hmore⟩ := Pool.exists_runRounds_eq requests (5 * requests.length + 5)
      ((Pool.initial requests jobs).run requests schedule)
    refine ⟨more, ?_⟩
    rw [Pool.run, List.foldl_append, ← Pool.run, ← Pool.run, ← hmore]
    exact Pool.isFinished_runRounds (Pool.remaining_le requests _)
  · exact Pool.isFinished_runRounds (Pool.remaining_initial requests jobs)
  · exact Pool.exists_runRounds_eq requests _ _

/-- A schedule of two workers in which the second one overtakes the first one. -/
def overtaking : List Nat := [0, 1, 1, 1, 1, 1, 1, 0, 0, 0, 0, 0]

private theorem isFinished_overtaking (first second : String) :
    ((Pool.initial [first, second] 2).run [first, second] overtaking).isFinished = true := by
  have hstart : Pool.initial [first, second] 2 =
      ⟨0, [.ready, .ready], {}, ["", ""], []⟩ := rfl
  rw [hstart, Pool.run, overtaking]
  -- The steps are the same whether requests are accepted or rejected.
  cases hfirst : Request.handle first <;> cases hsecond : Request.handle second <;>
    simp [Pool.step, Pool.setPhase, Pool.tally, hfirst, hsecond, Pool.isFinished]

/-- The texts of answers tell whether requests are accepted. -/
theorem render_respond_ne (e : Error) (v : Json) :
    (Request.respond (.error e)).render ≠ (Request.respond (.ok v)).render := by
  intro h
  have hchar := congrArg (fun text => text.toList[2]?) h
  simp [Request.respond, Json.render, Json.renderFields, Json.quote, Json.escapeChar] at hchar

/-- A request to start a proof by resolution. -/
def asking : Json :=
  .obj [("calculus", .str "prop-resolution"), ("action", .str "parse"), ("formula", .str "a")]

private theorem lossless_asking : asking.Lossless := by
  refine .obj ?_
  simp [Json.Lossless.str]

private theorem exists_handle_asking : ∃ v, Request.handle asking.render = .ok v := by
  let s : Resolution.State String := .initial ⟨[⟨[⟨"a", false⟩]⟩]⟩ false
  have hread : Request.ofJson.ofText .request asking.render =
      .ok ⟨"prop-resolution", .parse "a" none⟩ := by
    rw [Json.Decoder.ofText, lossless_asking.readAs.read_render]
    cbv
  have hstart : Resolution.Propositional.start {} "a" = .ok s := by cbv
  have hparse : parse "prop-resolution" "a" none =
      .ok (Calculus.propositionalResolution.writeState s) := by
    change Calculus.propositionalResolution.parse "a" none = _
    exact Outcome.bind_eq_ok.mpr ⟨_, rfl, Outcome.bind_eq_ok.mpr ⟨s, hstart, rfl⟩⟩
  -- How deep the answer nests does not depend on the seal.
  have hdepth (digest : String) : (s.toJson digest).depth ≤ Json.maxDepth := by cbv
  exact ⟨_, Outcome.bind_eq_ok.mpr ⟨_, congrArg Outcome.ofDocument hread,
    Outcome.bind_eq_ok.mpr ⟨_, hparse, if_pos (hdepth _)⟩⟩⟩

/-- A request that cannot be read and one that is accepted are answered in their places, and
differently, when the second worker overtakes the first one. -/
theorem overtaking_answers :
    ∃ requests p, requests = ["x", asking.render] ∧
      p = (Pool.initial requests 2).run requests overtaking ∧ p.isFinished = true ∧
      p.responses = requests.map (fun line => (Request.respond (Request.handle line)).render) ∧
      p.responses.Nodup ∧ p.statistics = ⟨2, 1, 1⟩ := by
  have hdone := isFinished_overtaking "x" asking.render
  obtain ⟨hresponses, -, hstatistics⟩ :=
    (answers_independent_of_schedule ["x", asking.render] 2).1 _ hdone
  have hrejected : Request.handle "x" = .error (.document (.unreadable .request)) := by cbv
  obtain ⟨v, haccepted⟩ := exists_handle_asking
  refine ⟨_, _, rfl, rfl, hdone, hresponses, ?_, hstatistics.trans ?_⟩
  · rw [hresponses]
    simp [hrejected, haccepted, render_respond_ne]
  · simp [hrejected, haccepted, Except.isOk, Except.toBool]

end Deduction.Batch
