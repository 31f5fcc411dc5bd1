import Mathlib

/-!
# `leader_follower_thread_pool`

The threads of a pool whose task is `reactor::handle_events`, as the steps they make under the mutex
of the pool. The leader runs the task and promotes a new leader on its way, unless it returns early:
then it stays recorded as the leader and waits for a promotion like the others.
-/

namespace Matador.Net

open Function List

/-- What one call of `reactor::handle_events` comes upon. -/
structure Events where
  hasClients : Bool
  /-- `select` fails with `EINTR`; after any other error it is called again -/
  signalled : Bool
  interrupted : Bool
  shutdownRequested : Bool

/-- Whether `reactor::handle_events` calls `promote_new_leader` before it returns. -/
def Events.promotes (e : Events) : Bool :=
  if !e.hasClients then false
  else if e.signalled then false
  else if e.interrupted then !e.shutdownRequested
  -- in front of the call of the handler, or as there is none
  else true

inductive Phase
  /-- in front of the mutex, at the start or behind the task -/
  | entering
  | waiting
  /-- in the task, in front of `promote_new_leader` -/
  | executing
  /-- in the task, behind `promote_new_leader` -/
  | promoted
  | stopped
  deriving DecidableEq

structure LeaderFollowerPool (τ : Type) where
  leader : Option τ := none
  signalReady : Bool := false
  signalShutdown : Bool := false
  running : Bool := true
  phase : τ → Phase := fun _ => .entering

inductive Action (τ : Type)
  /-- a thread gets the mutex -/
  | enter (t : τ)
  /-- a thread comes out of `wait` -/
  | wake (t : τ)
  /-- the task, to its promotion or to its early return -/
  | task (t : τ) (e : Events)
  /-- the rest of the task -/
  | finish (t : τ)
  | stop
  | shutdown

namespace LeaderFollowerPool

variable {τ : Type} [DecidableEq τ]

/-- The loops of `execute` up to the task or to `wait`, which does not block if it is signalled. -/
def acquire (s : LeaderFollowerPool τ) (t : τ) : LeaderFollowerPool τ :=
  if !s.running then { s with phase := update s.phase t .stopped }
  else if s.leader = none then { s with leader := some t, phase := update s.phase t .executing }
  else { s with signalReady := false, phase := update s.phase t .waiting }

def promoteNewLeader (s : LeaderFollowerPool τ) (t : τ) : LeaderFollowerPool τ :=
  if s.leader ≠ some t then s else { s with leader := none, signalReady := true }

/-- One step; a thread that is elsewhere makes none. -/
def step (s : LeaderFollowerPool τ) : Action τ → LeaderFollowerPool τ
  | .enter t => if s.phase t = .entering then s.acquire t else s
  | .wake t =>
    if s.phase t = .waiting ∧ (s.signalReady || s.signalShutdown) then
      { s with signalReady := false }.acquire t
    else s
  | .task t e =>
    if s.phase t ≠ .executing then s
    else if e.promotes then { s.promoteNewLeader t with phase := update s.phase t .promoted }
    else { s with phase := update s.phase t .entering }
  | .finish t => if s.phase t = .promoted then { s with phase := update s.phase t .entering } else s
  | .stop => { s with running := false }
  | .shutdown => { s with running := false, signalShutdown := true }

def run (s : LeaderFollowerPool τ) (acts : List (Action τ)) : LeaderFollowerPool τ :=
  acts.foldl step s

/-- The recorded leader executes the task and has not promoted a new one. -/
def LeaderExecutes (s : LeaderFollowerPool τ) : Prop :=
  ∀ t, s.leader = some t → s.phase t = .executing

/-- A task returns that has not promoted a new leader. -/
def ReturnsEarly (s : LeaderFollowerPool τ) : Action τ → Prop
  | .task t e => s.phase t = .executing ∧ e.promotes = false
  | _ => False

/-- Who executes the task in front of its promotion is the recorded leader. -/
def ExecutingLeads (s : LeaderFollowerPool τ) : Prop :=
  ∀ t, s.phase t = .executing → s.leader = some t

variable {s : LeaderFollowerPool τ} {u : τ}

theorem acquire_spec (hu : s.phase u ≠ .executing) (h : s.ExecutingLeads) :
    (s.acquire u).ExecutingLeads ∧ (s.LeaderExecutes → (s.acquire u).LeaderExecutes) := by
  unfold acquire
  split
  on_goal 2 => split
  all_goals
    refine ⟨fun t ht => ?_, fun hex t ht => ?_⟩
    all_goals simp only [update_apply] at ht ⊢
    all_goals grind [ExecutingLeads, LeaderExecutes]

theorem step_spec (a : Action τ) (h : s.ExecutingLeads) : (s.step a).ExecutingLeads ∧
    (s.LeaderExecutes → ¬s.ReturnsEarly a → (s.step a).LeaderExecutes) := by
  have hsame : s.ExecutingLeads ∧ (s.LeaderExecutes → ¬s.ReturnsEarly a → s.LeaderExecutes) :=
    ⟨h, fun hex _ => hex⟩
  cases a with
  | enter u =>
    rw [step]
    split
    · next hu => exact (acquire_spec (by simp [hu]) h).imp_right fun hlead hex _ => hlead hex
    · exact hsame
  | wake u =>
    rw [step]
    split
    · next hu =>
      have hspec := acquire_spec (s := { s with signalReady := false }) (u := u) (by simp [hu.1]) h
      exact hspec.imp_right fun hlead hex _ => hlead hex
    · exact hsame
  | task u e =>
    rw [step]
    split
    · exact hsame
    · next hu =>
      rw [ne_eq, not_not] at hu
      have hpro : s.promoteNewLeader u = { s with leader := none, signalReady := true } :=
        if_neg (by simp [h u hu])
      rw [hpro]
      split
      all_goals
        refine ⟨fun t ht => ?_, fun hex hret t ht => ?_⟩
        all_goals simp only [update_apply] at ht ⊢
        all_goals grind [ExecutingLeads, LeaderExecutes, ReturnsEarly]
  | finish u =>
    rw [step]
    split
    · refine ⟨fun t ht => ?_, fun hex hret t ht => ?_⟩
      all_goals simp only [update_apply] at ht ⊢
      all_goals grind [ExecutingLeads, LeaderExecutes]
    · exact hsame
  | stop => exact hsame
  | shutdown => exact hsame

theorem running_step {a : Action τ} (h : (s.step a).running) : s.running := by
  cases a with
  | stop => cases h
  | shutdown => cases h
  | _ => grind [step, acquire, promoteNewLeader]

theorem run_append (s : LeaderFollowerPool τ) (pre : List (Action τ)) (a : Action τ) :
    s.run (pre ++ [a]) = (s.run pre).step a := foldl_append

theorem executingLeads_run (acts : List (Action τ)) :
    (run ({} : LeaderFollowerPool τ) acts).ExecutingLeads := by
  induction acts using reverseRecOn with
  | nil => simp [run, ExecutingLeads]
  | append_singleton pre a ih => exact run_append _ pre a ▸ (step_spec a ih).1

/-- **In a running pool the recorded leader executes the task and has not promoted a new leader,
along a whole run, if and only if no task of the run returns without a promotion.** -/
theorem leaderExecutes_iff (acts : List (Action τ)) :
    (∀ pre, pre <+: acts → (run {} pre).running → (run {} pre).LeaderExecutes) ↔
      ∀ pre a, pre ++ [a] <+: acts → (run {} pre).running → ¬(run {} pre).ReturnsEarly a := by
  constructor
  · intro hall pre a hpre hrun hret
    cases a with
    | task u e =>
      obtain ⟨hu, he⟩ := hret
      have hstep : run {} (pre ++ [.task u e]) =
          { run {} pre with phase := update (run {} pre).phase u .entering } := by
        rw [run_append, step, if_neg (by simp [hu]), if_neg (by simp [he])]
      have hlead := hall _ hpre
      rw [hstep] at hlead
      simpa using hlead hrun u (executingLeads_run pre u hu)
    | _ => exact hret
  · intro hall pre
    induction pre using reverseRecOn with
    | nil => exact fun _ _ t ht => by cases ht
    | append_singleton pre a ih =>
      intro hpre hrun
      rw [run_append] at hrun ⊢
      have hrun := running_step hrun
      exact (step_spec a (executingLeads_run pre)).2 (ih ((prefix_append ..).trans hpre) hrun)
        (hall pre a hpre hrun)

/-- `select` is interrupted by a signal. -/
theorem leader_waits : (run {} [.enter 0, .task 0 ⟨true, true, false, false⟩, .enter 0]).running ∧
    (run {} [.enter 0, .task 0 ⟨true, true, false, false⟩, .enter 0]).leader = some 0 ∧
    (run {} [.enter 0, .task 0 ⟨true, true, false, false⟩, .enter 0]).phase 0 = .waiting := by
  decide

/-- **At most one thread at a time is in the task in front of its promotion.** -/
theorem executing_subsingleton (acts : List (Action τ)) :
    {t | (run {} acts).phase t = .executing}.Subsingleton := by
  intro t ht u hu
  have hlead := executingLeads_run acts t ht
  simpa [hlead] using executingLeads_run acts u hu

/-- A leader is recorded, but no thread is in the task in front of its promotion. -/
def Blocked (s : LeaderFollowerPool τ) : Prop :=
  ∃ t, s.leader = some t ∧ ∀ u, s.phase u ≠ .executing

theorem blocked_step (h : s.ExecutingLeads) (a : Action τ) :
    (s.step a).Blocked ↔ s.Blocked ∨ s.ReturnsEarly a := by
  have hspec := (step_spec a h).2
  constructor
  · grind [LeaderExecutes, Blocked, ExecutingLeads]
  · unfold step
    cases a with
    | stop | shutdown => simp [ReturnsEarly, Blocked]
    | _ =>
      dsimp only [acquire, ReturnsEarly]
      split_ifs
      all_goals grind [Blocked, update_apply, ExecutingLeads]

/-- **The pool is blocked if and only if a task has returned without a promotion**, and then for
good. -/
theorem blocked_iff (acts : List (Action τ)) :
    (run {} acts).Blocked ↔ ∃ pre a, pre ++ [a] <+: acts ∧ (run {} pre).ReturnsEarly a := by
  induction acts using reverseRecOn with
  | nil => simp [Blocked, run]
  | append_singleton acts b ih =>
    rw [run_append, blocked_step (executingLeads_run acts), ih]
    simp [prefix_concat_iff, or_and_right, exists_or, or_comm]

end LeaderFollowerPool

end Matador.Net
