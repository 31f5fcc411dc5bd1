import Mathlib

/-!
# `thread_pool`

The steps that the workers and the clients of a pool make under its mutex, and the two that a worker
makes outside of it: the end of its task and the decrement of `busy_`. A task is started when a
worker takes it from the queue. A run is any interleaving of such steps (`Run`).
-/

namespace Matador.ThreadPool

/-- Where a worker is in `execute`. -/
inductive Worker (τ : Type) where
  /-- in front of the mutex or in `condition_task_.wait` -/
  | waiting
  | executing (func : τ)
  /-- behind `func()` and in front of `--busy_` -/
  | ended
  | stopped

/-- `thread_pool`, with the clients that are in `wait()` and the tasks in the order of `schedule`
and of their start. `busy_` is an `atomic_uint`; it counts workers, and a pool has fewer than `2 ^
32` of them. -/
structure Pool (τ κ : Type) where
  running : Bool := true
  tasks : List τ := []
  busy : Nat := 0
  workers : List (Worker τ)
  inWait : κ → Bool := fun _ => false
  scheduled : List τ := []
  started : List τ := []

variable {τ κ : Type} [DecidableEq κ]

inductive Step : Pool τ κ → Pool τ κ → Prop
  | schedule (s : Pool τ κ) (func : τ) :
    Step s { s with tasks := s.tasks ++ [func], scheduled := s.scheduled ++ [func] }
  | shutdown (s : Pool τ κ) : Step s { s with running := false }
  | enterWait (s : Pool τ κ) (client : κ) :
    Step s { s with inWait := fun k => k = client || s.inWait k }
  | leaveWait (s : Pool τ κ) (client : κ) (hwait : s.inWait client = true) (htasks : s.tasks = [])
      (hbusy : s.busy = 0) :
    Step s { s with inWait := fun k => k ≠ client && s.inWait k }
  | stop (s : Pool τ κ) {before after : List (Worker τ)}
      (hworkers : s.workers = before ++ .waiting :: after)
      (hrunning : s.running = false) :
    Step s { s with workers := before ++ .stopped :: after }
  | start (s : Pool τ κ) {before after : List (Worker τ)} {func : τ} {rest : List τ}
      (hworkers : s.workers = before ++ .waiting :: after) (hrunning : s.running = true)
        (htasks : s.tasks = func :: rest) :
    Step s { s with
      busy := s.busy + 1, tasks := rest, workers := before ++ .executing func :: after, started :=
      s.started ++ [func] }
  | finish (s : Pool τ κ) {before after : List (Worker τ)} {func : τ}
      (hworkers : s.workers = before ++ .executing func :: after) :
    Step s { s with workers := before ++ .ended :: after }
  | release (s : Pool τ κ) {before after : List (Worker τ)}
      (hworkers : s.workers = before ++ .ended :: after) :
    Step s { s with busy := s.busy - 1, workers := before ++ .waiting :: after }

/-- A worker between `++busy_` and `--busy_`. -/
def Worker.isBusy : Worker τ → Bool
  | executing _ | ended => true
  | waiting | stopped => false

/-- What the queue, the counter and the workers have to do with each other. -/
structure Inv (s : Pool τ κ) : Prop where
  order : s.started ++ s.tasks = s.scheduled
  busy : s.busy = s.workers.countP Worker.isBusy

theorem Step.inv {s s' : Pool τ κ} (h : Step s s') (hs : Inv s) : Inv s' := by
  obtain ⟨hord, hbusy⟩ := hs
  cases h with
  | schedule func => exact ⟨by simp [← hord], hbusy⟩
  | shutdown => exact ⟨hord, hbusy⟩
  | enterWait client => exact ⟨hord, hbusy⟩
  | leaveWait client => exact ⟨hord, hbusy⟩
  | stop hwor => exact ⟨hord, by simpa [hwor, Worker.isBusy] using hbusy⟩
  | start hwor _ htas =>
    refine ⟨by simp [← hord, htas], ?_⟩
    simp [hbusy, hwor, Worker.isBusy, List.countP_cons]
    omega
  | finish hwor => exact ⟨hord, by simpa [hwor, Worker.isBusy, List.countP_cons] using hbusy⟩
  | release hwor => exact ⟨hord, by simp [hbusy, hwor, Worker.isBusy, List.countP_cons]⟩

theorem Step.stopped {s s' : Pool τ κ} (h : Step s s') (hs : s.running = false) :
    s'.running = false ∧ s'.started = s.started := by
  cases h with
  | start _ hrun => simp [hs] at hrun
  | _ => exact ⟨by simp [hs], rfl⟩

abbrev Run : Pool τ κ → Pool τ κ → Prop := Relation.ReflTransGen Step

theorem Run.inv {s s' : Pool τ κ} (h : Run s s') (hs : Inv s) : Inv s' := by
  induction h with
  | refl => exact hs
  | tail _ hstep ih => exact hstep.inv ih

/-- **Tasks are started in their order and once, and none after `shutdown`; when a client leaves
`wait()`, no task is queued or executed.** -/
theorem run_correct {workers : Nat} {s : Pool τ κ}
    (h : Run { workers := .replicate workers .waiting } s) :
    s.started <+: s.scheduled ∧ (s.running = false → ∀ s', Run s s' → s'.started = s.started) ∧
      ∀ s' client, Step s s' → s.inWait client → s'.inWait client = false →
        s.tasks = [] ∧ ∀ func, .executing func ∉ s.workers := by
  have hinv : Inv s := h.inv ⟨rfl, by simp [Worker.isBusy, List.countP_replicate]⟩
  refine ⟨⟨s.tasks, hinv.order⟩, fun hs s' hrun => ?_, fun s' client hstep hin hout => ?_⟩
  · suffices s'.running = false ∧ s'.started = s.started from this.2
    induction hrun with
    | refl => exact ⟨hs, rfl⟩
    | tail _ hstep ih =>
      obtain ⟨hrunn, hsta⟩ := hstep.stopped ih.1
      exact ⟨hrunn, hsta.trans ih.2⟩
  · obtain ⟨htas, hbusy⟩ : s.tasks = [] ∧ s.busy = 0 := by
      cases hstep with
      | leaveWait client' _ htas hbusy => exact ⟨htas, hbusy⟩
      | enterWait client' => simp [hin] at hout
      | _ => simp [hin] at hout
    rw [hinv.busy, List.countP_eq_zero] at hbusy
    exact ⟨htas, fun func hmem => hbusy _ hmem rfl⟩

/-- One worker has taken the first of two tasks. -/
theorem run_of_schedule : Run (κ := Unit) { workers := .replicate 1 .waiting }
      { workers := [.executing 7], busy := 1, tasks := [8], scheduled := [7, 8], started := [7] } ∧
      [7] <+: [7, 8] := by
  have hrun : Run (κ := Unit) { workers := .replicate 1 .waiting }
      { workers := [.executing 7], busy := 1, tasks := [8], scheduled := [7, 8], started := [7] } :=
    ((Relation.ReflTransGen.single (.schedule _ 7)).tail (.schedule _ 8)).tail
      (.start _ (show _ = [] ++ Worker.waiting :: [] from rfl) rfl rfl)
  exact ⟨hrun, (run_correct hrun).1⟩

end Matador.ThreadPool
