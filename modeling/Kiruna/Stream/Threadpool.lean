import Kiruna.Primitive.Fifo
import Kiruna.Transition.Population
import Kiruna.Transition.Lts

/-!
# The Windows stream threadpool

`Threadpool::send` pushes a closure on a `sync_channel(5)` and releases a semaphore; the one worker
waits on the semaphore and receives one closure for each successful wait. The semaphore is created
with a maximum count of 2, and a release above the maximum changes nothing and returns `FALSE`,
which `send` ignores.
-/

namespace Kiruna.Stream

/-- A Win32 semaphore, with the maximum count it was created with. -/
structure WinSemaphore (max : ℕ) where
  count : ℕ
  count_le : count ≤ max
  deriving DecidableEq

namespace WinSemaphore

/-- `CreateSemaphoreA(None, 0, 2, null)`. -/
def new : WinSemaphore 2 := ⟨0, Nat.zero_le _⟩

/-- `ReleaseSemaphore(handle, 1, None)`, with the value it returns. -/
def release {max : ℕ} (s : WinSemaphore max) : WinSemaphore max × Bool :=
  if h : s.count < max then (⟨s.count + 1, h⟩, true) else (s, false)

/-- A wait that is satisfied takes one from the count; at zero it does not return. -/
def wait {max : ℕ} : WinSemaphore max → Option (WinSemaphore max)
  | ⟨0, _⟩ => none
  | ⟨n + 1, h⟩ => some ⟨n, Nat.le_of_succ_le h⟩

variable {max : ℕ} {s t : WinSemaphore max}

theorem release_true (h : s.release = (t, true)) : s.count < max ∧ t.count = s.count + 1 := by
  unfold release at h
  split_ifs at h with hs
  · cases h
    exact ⟨hs, rfl⟩
  · simp at h

theorem release_false (h : s.release = (t, false)) : t = s ∧ s.count = max := by
  have hle := s.count_le
  unfold release at h
  split_ifs at h with hs
  · simp at h
  · cases h
    exact ⟨rfl, by omega⟩

theorem wait_eq_some (h : s.wait = some t) : s.count = t.count + 1 := by
  obtain ⟨n, hn⟩ := s
  cases n with
  | zero => cases h
  | succ n =>
      cases h
      rfl

end WinSemaphore

/-- Where a call of `Threadpool::send` stands. -/
inductive SendPc (F : Type*)
  | push (f : F)
  | release
  | returned
  deriving DecidableEq

/-- Where `WorkerThread::in_thread` stands; `starting` is a thread that has not entered it. -/
inductive WorkerPc (F : Type*)
  | starting
  | waiting
  | recv
  | running (f : F)
  deriving DecidableEq

structure Threadpool (F : Type*) where
  semaphore : WinSemaphore 2
  channel : Fifo F 5
  senders : List (SendPc F)
  worker : WorkerPc F
  deriving DecidableEq

/-- One step of some thread; `release` carries the value that `ReleaseSemaphore` returned, and
`alerted` is a wait that ended for another reason than `WAIT_OBJECT_0`. -/
inductive ThreadpoolLabel (F : Type*)
  | addTask (f : F)
  | push (i : ℕ)
  | release (i : ℕ) (granted : Bool)
  | beginThread
  | waitObject
  | alerted
  | recv
  | closureReturned

namespace Threadpool

variable {F : Type*}

def new : Threadpool F where
  semaphore := .new
  channel := .empty
  senders := []
  worker := .starting

def step (s : Threadpool F) : ThreadpoolLabel F → Option (Threadpool F)
  | .addTask f => some { s with senders := s.senders ++ [.push f] }
  | .push i =>
      match s.senders[i]? with
      | some (.push f) => (s.channel.push f).map fun q =>
          { s with channel := q, senders := s.senders.set i .release }
      | _ => none
  | .release i granted =>
      match s.senders[i]? with
      | some .release =>
          if s.semaphore.release.2 = granted then
            some { s with
              semaphore := s.semaphore.release.1
              senders := s.senders.set i .returned }
          else none
      | _ => none
  | .beginThread =>
      match s.worker with
      | .starting => some { s with worker := .waiting }
      | _ => none
  | .waitObject =>
      match s.worker with
      | .waiting => s.semaphore.wait.map fun m => { s with semaphore := m, worker := .recv }
      | _ => none
  | .alerted =>
      match s.worker with
      | .waiting => some s
      | _ => none
  | .recv =>
      match s.worker with
      | .recv => s.channel.pop.map fun p => { s with channel := p.2, worker := .running p.1 }
      | _ => none
  | .closureReturned =>
      match s.worker with
      | .running _ => some { s with worker := .waiting }
      | _ => none

def system : Lts (Threadpool F) (ThreadpoolLabel F) where
  init := new
  step := step

/-- The senders between their push and their release. -/
def releasing : SendPc F → ℕ
  | .release => 1
  | _ => 0

/-- The permit the worker took and has not yet used to receive. -/
def receiving : WorkerPc F → ℕ
  | .recv => 1
  | _ => 0

/-- The releases of a history that the full semaphore refused. -/
def refused (h : List (ThreadpoolLabel F)) : ℕ :=
  weight (fun | .release _ false => 1 | _ => 0) h

/-- Every queued closure has its permit: in the semaphore, in the hands of the worker, with a
sender that has still to release it, or lost to a refused release. -/
def Balanced (h : List (ThreadpoolLabel F)) (s : Threadpool F) : Prop :=
  s.channel.items.length =
    s.semaphore.count + weight releasing s.senders + receiving s.worker + refused h

theorem balanced_step {h : List (ThreadpoolLabel F)} {s t : Threadpool F}
    {a : ThreadpoolLabel F} (hs : Balanced h s) (hst : s.step a = some t) :
    Balanced (a :: h) t := by
  unfold Balanced refused at *
  cases a with
  | addTask f =>
      obtain rfl := Option.some.inj hst
      simpa [releasing] using hs
  | push i =>
      simp only [step] at hst
      split at hst
      · rename_i f hf
        obtain ⟨q, hq, rfl⟩ := Option.map_eq_some_iff.mp hst
        have hw := weight_set (w := releasing) .release hf
        simp only [(Fifo.push_eq_some.mp hq).2, List.length_append, List.length_singleton,
          weight_cons, releasing] at hw ⊢
        omega
      · cases hst
  | release i granted =>
      simp only [step] at hst
      split at hst
      · rename_i hi
        split_ifs at hst with hg
        obtain rfl := Option.some.inj hst
        have hw := weight_set (w := releasing) .returned hi
        have hr : s.semaphore.release = (s.semaphore.release.1, granted) := Prod.ext rfl hg
        simp only [weight_cons, releasing] at hw ⊢
        cases granted with
        | true =>
            have hc := (WinSemaphore.release_true hr).2
            simp only
            omega
        | false =>
            have hc := congrArg WinSemaphore.count (WinSemaphore.release_false hr).1
            simp only
            omega
      · cases hst
  | beginThread =>
      simp only [step] at hst
      split at hst
      · rename_i hw
        obtain rfl := Option.some.inj hst
        simpa [hw, receiving] using hs
      · cases hst
  | waitObject =>
      simp only [step] at hst
      split at hst
      · rename_i hw
        obtain ⟨m, hm, rfl⟩ := Option.map_eq_some_iff.mp hst
        have hc := WinSemaphore.wait_eq_some hm
        simp only [hw, receiving, weight_cons] at hs ⊢
        omega
      · cases hst
  | alerted =>
      simp only [step] at hst
      split at hst
      · obtain rfl := Option.some.inj hst
        simpa using hs
      · cases hst
  | recv =>
      simp only [step] at hst
      split at hst
      · rename_i hw
        obtain ⟨⟨f, q⟩, hq, rfl⟩ := Option.map_eq_some_iff.mp hst
        simp only [Fifo.pop_eq_some.mp hq, List.length_cons, hw, receiving, weight_cons] at hs ⊢
        omega
      · cases hst
  | closureReturned =>
      simp only [step] at hst
      split at hst
      · rename_i f hw
        obtain rfl := Option.some.inj hst
        simpa [hw, receiving] using hs
      · cases hst

theorem balanced_of_run {ok : Threadpool F → ThreadpoolLabel F → Prop}
    {h : List (ThreadpoolLabel F)} {s : Threadpool F} (hr : system.Run ok h s) : Balanced h s :=
  hr.induct (P := Balanced) (by simp [Balanced, refused, system, new, WinSemaphore.new, receiving])
    fun _ _ _ _ _ hs _ hst => balanced_step hs hst

/-- Nobody is on the way: the worker waits at a zero count and no sender has a release to make. -/
def Quiet (s : Threadpool F) : Prop :=
  s.semaphore.count = 0 ∧ s.worker = .waiting ∧ ∀ pc ∈ s.senders, pc ≠ .release

/-- In a quiet state the closures that wait are exactly those whose release was refused. -/
theorem Quiet.length_eq_refused {ok : Threadpool F → ThreadpoolLabel F → Prop}
    {h : List (ThreadpoolLabel F)} {s : Threadpool F} (hr : system.Run ok h s) (hq : s.Quiet) :
    s.channel.items.length = refused h := by
  have hb := balanced_of_run hr
  have hz : weight releasing s.senders = 0 := by
    rw [weight_eq_zero]
    intro pc hpc
    have hne := hq.2.2 pc hpc
    cases pc <;> simp_all [releasing]
  simpa [Balanced, hq.1, hq.2.1, hz, receiving] using hb

/-- No scheduled operation is stranded. -/
def NotStranded (s : Threadpool F) : Prop := s.Quiet → s.channel.items = []

/-- Every release finds the count below its maximum. -/
def ReleaseFits (s : Threadpool F) : ThreadpoolLabel F → Prop
  | .release _ _ => s.semaphore.count < 2
  | _ => True

instance : ∀ (s : Threadpool F) (a : ThreadpoolLabel F), Decidable (s.ReleaseFits a)
  | s, .release _ _ => inferInstanceAs (Decidable (s.semaphore.count < 2))
  | _, .addTask _ | _, .push _ | _, .beginThread | _, .waitObject | _, .alerted | _, .recv
  | _, .closureReturned => isTrue trivial

theorem refused_eq_zero {h : List (ThreadpoolLabel F)} {s : Threadpool F}
    (hr : system.Run ReleaseFits h s) : refused h = 0 := by
  refine hr.induct (P := fun h _ => refused h = 0) rfl ?_
  intro h t a u _ hz hok hst
  cases a with
  | release i granted =>
      simp only [system, step] at hst
      split at hst
      · split_ifs at hst with hg
        cases granted with
        | true => simpa [refused] using hz
        | false =>
            have hf := (WinSemaphore.release_false (t := t.semaphore.release.1)
              (Prod.ext rfl hg)).2
            simp only [ReleaseFits] at hok
            omega
      · cases hst
  | _ => simpa [refused] using hz

/-- No operation is stranded in a run whose releases all fit below the semaphore's maximum. -/
theorem notStranded_of_releaseFits {h : List (ThreadpoolLabel F)} {s : Threadpool F}
    (hr : system.Run ReleaseFits h s) : s.NotStranded := by
  intro hq
  have hl := hq.length_eq_refused hr
  rw [refused_eq_zero hr] at hl
  exact List.length_eq_zero_iff.mp hl

/-- Three senders get ahead of a worker that has not started: the third release is refused. -/
def threeAhead : List (ThreadpoolLabel ℕ) :=
  [.addTask 0, .addTask 1, .addTask 2, .push 0, .push 1, .push 2,
    .release 0 true, .release 1 true, .release 2 false,
    .beginThread, .waitObject, .recv, .closureReturned, .waitObject, .recv, .closureReturned]

def afterThreeAhead : Threadpool ℕ where
  semaphore := ⟨0, by decide⟩
  channel := ⟨[2], by decide⟩
  senders := [.returned, .returned, .returned]
  worker := .waiting

theorem exists_stranded : ¬ ∀ s : Threadpool ℕ, system.Reachable s → s.NotStranded := by
  intro hall
  have hr : system.Reachable afterThreeAhead :=
    ⟨threeAhead.reverse, Lts.path_of_exec _ (by decide)⟩
  have hq : afterThreeAhead.Quiet := by
    refine ⟨rfl, rfl, ?_⟩
    decide
  have hc := hall _ hr hq
  simp [afterThreeAhead] at hc

/-- A sender that finds the worker idle: its closure is received and run. -/
theorem notStranded_one_task :
    NotStranded (F := ℕ) ⟨⟨0, by decide⟩, ⟨[], by decide⟩, [.returned], .waiting⟩ :=
  notStranded_of_releaseFits (Lts.path_of_exec [.addTask 0, .beginThread, .push 0,
    .release 0 true, .waitObject, .recv, .closureReturned] (by decide))

end Threadpool
end Kiruna.Stream
