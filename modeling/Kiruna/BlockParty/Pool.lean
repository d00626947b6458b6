import Kiruna.Primitive.Fifo
import Kiruna.Transition.Population
import Kiruna.Transition.Lts

/-!
# The pool of block_party

A poll hands its task to the worker through a channel of capacity 1 and then swaps the launch flag:
at `false` it spawns a worker, at `true` it wakes the side channel of the one that runs. A worker
whose tasks are all done waits one more second for a task, leaves its loop and stores `false`.

`wait_any` belongs to the implementor of `Task`; it may return any result at any time. A receive
times out only when the channel is empty.
-/

namespace Kiruna.BlockParty

structure WorkerSideInfo (Task : Type*) where
  task : Task
  mailbox : ℕ
  deriving DecidableEq

/-- Where a call of `launch_if_needed_user_waiting` stands. -/
inductive SenderPc (Task : Type*)
  | sending (info : WorkerSideInfo Task)
  | swapping
  | spawning
  | waking
  | returned
  deriving DecidableEq

/-- Where `worker_fn_user_waiting` stands. `firstRead` is the `read_greedy` before the loop, `read`
the one inside it and `longRead` the receive with the timeout of one second; `refresh` is about to
write a new side channel, and `leaving` is past the loop, before the store. -/
inductive WorkerPc
  | firstRead
  | head
  | read
  | wait
  | refresh
  | longRead
  | leaving
  | gone
  deriving DecidableEq

structure Worker (Task : Type*) where
  pc : WorkerPc
  tasks : List Task
  mailboxes : List ℕ
  deriving DecidableEq

/-- Side channels are numbered; `woken` lists those that were woken and `mailed` the outputs that
were sent, with their mailboxes. -/
structure Pool (Task Output : Type*) where
  channel : Fifo (WorkerSideInfo Task) 1
  threadLaunched : Bool
  sideChannel : ℕ
  woken : List ℕ
  senders : List (SenderPc Task)
  workers : List (Worker Task)
  mailed : List (ℕ × Output)
  deriving DecidableEq

/-- A step of a worker; `task` and `sidechannel` are the two results of `wait_any`. -/
inductive WorkerEvent (Output : Type*)
  | take
  | timeout
  | next
  | task (idx : ℕ) (output : Output)
  | sidechannel
  | refresh
  | store
  deriving DecidableEq

/-- A step of the pool; `swap` carries the value that the sender obtained. -/
inductive PoolLabel (Task Output : Type*)
  | submit (info : WorkerSideInfo Task)
  | send (i : ℕ)
  | swap (i : ℕ) (old : Bool)
  | spawn (i : ℕ)
  | wake (i : ℕ)
  | work (w : ℕ) (e : WorkerEvent Output)
  deriving DecidableEq

namespace Pool

variable {Task Output : Type*}

def new : Pool Task Output where
  channel := .empty
  threadLaunched := false
  sideChannel := 0
  woken := []
  senders := []
  workers := []
  mailed := []

/-- The next step of the worker `k`, which has the number `w`. -/
def workStep (oneWaitOnly : Bool) (s : Pool Task Output) (w : ℕ) (k : Worker Task) :
    WorkerEvent Output → Option (Pool Task Output)
  | .take =>
      match s.channel.pop with
      | none => none
      | some (info, q) =>
          let k' := { k with
            tasks := k.tasks ++ [info.task]
            mailboxes := k.mailboxes ++ [info.mailbox] }
          match k.pc with
          | .firstRead | .read => some { s with channel := q, workers := s.workers.set w k' }
          | .longRead => some { s with
              channel := q
              workers := s.workers.set w { k' with pc := .head } }
          | _ => none
  | .timeout =>
      if s.channel.items = [] then
        match k.pc with
        | .firstRead => some { s with workers := s.workers.set w { k with pc := .head } }
        | .read => some { s with workers := s.workers.set w { k with pc := .wait } }
        | .longRead => some { s with workers := s.workers.set w { k with pc := .leaving } }
        | _ => none
      else none
  | .next =>
      match k.pc with
      | .head => some { s with
          workers := s.workers.set w
            { k with pc := if k.tasks.isEmpty then .longRead else .read } }
      | _ => none
  | .task idx output =>
      match k.pc, k.tasks[idx]?, k.mailboxes[idx]? with
      | .wait, some _, some mailbox => some { s with
          mailed := s.mailed ++ [(mailbox, output)]
          workers := s.workers.set w {
            pc := if oneWaitOnly then .refresh else .head
            tasks := k.tasks.eraseIdx idx
            mailboxes := k.mailboxes.eraseIdx idx } }
      | _, _, _ => none
  | .sidechannel =>
      match k.pc with
      | .wait => some { s with workers := s.workers.set w { k with pc := .refresh } }
      | _ => none
  | .refresh =>
      match k.pc with
      | .refresh => some { s with
          sideChannel := s.sideChannel + 1
          workers := s.workers.set w { k with pc := .head } }
      | _ => none
  | .store =>
      match k.pc with
      | .leaving => some { s with
          threadLaunched := false
          workers := s.workers.set w { k with pc := .gone } }
      | _ => none

def step (oneWaitOnly : Bool) (s : Pool Task Output) :
    PoolLabel Task Output → Option (Pool Task Output)
  | .submit info => some { s with senders := s.senders ++ [.sending info] }
  | .send i =>
      match s.senders[i]? with
      | some (.sending info) => (s.channel.push info).map fun q =>
          { s with channel := q, senders := s.senders.set i .swapping }
      | _ => none
  | .swap i old =>
      match s.senders[i]? with
      | some .swapping =>
          if s.threadLaunched = old then
            some { s with
              threadLaunched := true
              senders := s.senders.set i (if old then .waking else .spawning) }
          else none
      | _ => none
  | .spawn i =>
      match s.senders[i]? with
      | some .spawning => some { s with
          senders := s.senders.set i .returned
          workers := s.workers ++ [⟨.firstRead, [], []⟩] }
      | _ => none
  | .wake i =>
      match s.senders[i]? with
      | some .waking => some { s with
          senders := s.senders.set i .returned
          woken := s.woken ++ [s.sideChannel] }
      | _ => none
  | .work w e => s.workers[w]?.bind fun k => s.workStep oneWaitOnly w k e

def system (Task Output : Type*) (oneWaitOnly : Bool) :
    Lts (Pool Task Output) (PoolLabel Task Output) where
  init := new
  step := step oneWaitOnly

end Pool

/-- Where the worker goes on when it has received an info. -/
def WorkerPc.received : WorkerPc → Option WorkerPc
  | .firstRead => some .firstRead
  | .read => some .read
  | .longRead => some .head
  | _ => none

/-- Where the worker goes on when a receive has timed out. -/
def WorkerPc.timedOut : WorkerPc → Option WorkerPc
  | .firstRead => some .head
  | .read => some .wait
  | .longRead => some .leaving
  | _ => none

namespace Worker

variable {Task : Type*} {k : Worker Task}

/-- The worker has not stored `false` yet. -/
def running (k : Worker Task) : ℕ :=
  match k.pc with
  | .gone => 0
  | _ => 1

/-- The worker has not left its loop: it is still going to receive. -/
def receiving (k : Worker Task) : ℕ :=
  match k.pc with
  | .leaving | .gone => 0
  | _ => 1

theorem running_of_receiving (h : k.receiving = 1) : k.running = 1 := by
  unfold receiving at h
  unfold running
  split at h <;> simp_all

def push (k : Worker Task) (info : WorkerSideInfo Task) (pc : WorkerPc) : Worker Task where
  pc := pc
  tasks := k.tasks ++ [info.task]
  mailboxes := k.mailboxes ++ [info.mailbox]

def remove (k : Worker Task) (idx : ℕ) (pc : WorkerPc) : Worker Task where
  pc := pc
  tasks := k.tasks.eraseIdx idx
  mailboxes := k.mailboxes.eraseIdx idx

theorem receiving_of_received {pc : WorkerPc} (h : k.pc.received = some pc) :
    k.receiving = 1 := by
  unfold receiving
  cases hk : k.pc <;> simp_all [WorkerPc.received]

theorem received_receiving {pc : WorkerPc} {l : List Task} {m : List ℕ}
    (h : k.pc.received = some pc) : (⟨pc, l, m⟩ : Worker Task).receiving = 1 := by
  unfold receiving
  cases hk : k.pc <;> simp [hk, WorkerPc.received] at h <;> subst h <;> rfl

end Worker

namespace Pool

variable {Task Output : Type*} {oneWaitOnly : Bool} {s t : Pool Task Output}

/-- What one step of the worker `k` does to the pool. -/
inductive WorkEffect (oneWaitOnly : Bool) (s : Pool Task Output) (w : ℕ) (k : Worker Task) :
    WorkerEvent Output → Pool Task Output → Prop
  | take {info : WorkerSideInfo Task} {q : Fifo (WorkerSideInfo Task) 1} {pc : WorkerPc}
      (hq : s.channel.items = info :: q.items) (hpc : k.pc.received = some pc) :
      WorkEffect oneWaitOnly s w k .take { s with
        channel := q
        workers := s.workers.set w (k.push info pc) }
  | timeout {pc : WorkerPc} (hc : s.channel.items = []) (hpc : k.pc.timedOut = some pc) :
      WorkEffect oneWaitOnly s w k .timeout
        { s with workers := s.workers.set w { k with pc := pc } }
  | next (hpc : k.pc = .head) :
      WorkEffect oneWaitOnly s w k .next { s with
        workers := s.workers.set w { k with pc := if k.tasks.isEmpty then .longRead else .read } }
  | task {idx : ℕ} {output : Output} {task : Task} {mailbox : ℕ} (hpc : k.pc = .wait)
      (ht : k.tasks[idx]? = some task) (hm : k.mailboxes[idx]? = some mailbox) :
      WorkEffect oneWaitOnly s w k (.task idx output) { s with
        mailed := s.mailed ++ [(mailbox, output)]
        workers := s.workers.set w (k.remove idx (if oneWaitOnly then .refresh else .head)) }
  | sidechannel (hpc : k.pc = .wait) :
      WorkEffect oneWaitOnly s w k .sidechannel
        { s with workers := s.workers.set w { k with pc := .refresh } }
  | refresh (hpc : k.pc = .refresh) :
      WorkEffect oneWaitOnly s w k .refresh { s with
        sideChannel := s.sideChannel + 1
        workers := s.workers.set w { k with pc := .head } }
  | store (hpc : k.pc = .leaving) :
      WorkEffect oneWaitOnly s w k .store { s with
        threadLaunched := false
        workers := s.workers.set w { k with pc := .gone } }

theorem workEffect_of_workStep {w : ℕ} {k : Worker Task} {e : WorkerEvent Output}
    (h : s.workStep oneWaitOnly w k e = some t) : WorkEffect oneWaitOnly s w k e t := by
  obtain ⟨pc, tasks, mailboxes⟩ := k
  cases e with
  | take =>
      simp only [workStep] at h
      split at h
      · cases h
      · rename_i info q hq
        have hitems := Fifo.pop_eq_some.mp hq
        split at h <;> cases h <;> exact .take hitems rfl
  | timeout =>
      simp only [workStep] at h
      split_ifs at h with hc
      split at h <;> cases h <;> exact .timeout hc rfl
  | next =>
      simp only [workStep] at h
      split at h <;> cases h
      exact .next rfl
  | task idx output =>
      simp only [workStep] at h
      split at h <;> cases h
      rename_i ht hm
      exact .task rfl ht hm
  | sidechannel =>
      simp only [workStep] at h
      split at h <;> cases h
      exact .sidechannel rfl
  | refresh =>
      simp only [workStep] at h
      split at h <;> cases h
      exact .refresh rfl
  | store =>
      simp only [workStep] at h
      split at h <;> cases h
      exact .store rfl

/-- What one step can do to the flag, the channel and the threads. -/
inductive Effect (s : Pool Task Output) : PoolLabel Task Output → Pool Task Output → Prop
  | submit (info : WorkerSideInfo Task) :
      Effect s (.submit info) { s with senders := s.senders ++ [.sending info] }
  | send {i : ℕ} {info : WorkerSideInfo Task} {q : Fifo (WorkerSideInfo Task) 1}
      (hi : s.senders[i]? = some (.sending info)) (hc : s.channel.items = []) :
      Effect s (.send i) { s with channel := q, senders := s.senders.set i .swapping }
  | swap {i : ℕ} (hi : s.senders[i]? = some .swapping) :
      Effect s (.swap i s.threadLaunched) { s with
        threadLaunched := true
        senders := s.senders.set i (if s.threadLaunched then .waking else .spawning) }
  | spawn {i : ℕ} (hi : s.senders[i]? = some .spawning) :
      Effect s (.spawn i) { s with
        senders := s.senders.set i .returned
        workers := s.workers ++ [⟨.firstRead, [], []⟩] }
  | wake {i : ℕ} (hi : s.senders[i]? = some .waking) :
      Effect s (.wake i) { s with
        senders := s.senders.set i .returned
        woken := s.woken ++ [s.sideChannel] }
  | work {w : ℕ} {e : WorkerEvent Output} {k k' : Worker Task}
      {q : Fifo (WorkerSideInfo Task) 1} {n : ℕ} {m : List (ℕ × Output)}
      (hw : s.workers[w]? = some k) (hk : k.receiving = 1) (hk' : k'.receiving = 1) :
      Effect s (.work w e) { s with
        channel := q
        sideChannel := n
        workers := s.workers.set w k'
        mailed := m }
  | leave {w : ℕ} {k : Worker Task} (hw : s.workers[w]? = some k) (hk : k.pc = .longRead)
      (hc : s.channel.items = []) :
      Effect s (.work w .timeout) { s with workers := s.workers.set w { k with pc := .leaving } }
  | store {w : ℕ} {k : Worker Task} (hw : s.workers[w]? = some k) (hk : k.pc = .leaving) :
      Effect s (.work w .store) { s with
        threadLaunched := false
        workers := s.workers.set w { k with pc := .gone } }

theorem effect_of_workStep {w : ℕ} {k : Worker Task} {e : WorkerEvent Output}
    (hw : s.workers[w]? = some k) (h : s.workStep oneWaitOnly w k e = some t) :
    Effect s (.work w e) t := by
  cases workEffect_of_workStep h with
  | take hq hpc => exact .work hw (Worker.receiving_of_received hpc) (Worker.received_receiving hpc)
  | @timeout pc hc hpc =>
      cases hk : k.pc with
      | longRead =>
          obtain rfl : WorkerPc.leaving = pc := by simpa [hk, WorkerPc.timedOut] using hpc
          exact .leave hw hk hc
      | firstRead =>
          obtain rfl : WorkerPc.head = pc := by simpa [hk, WorkerPc.timedOut] using hpc
          exact .work hw (by rw [Worker.receiving, hk]) rfl
      | read =>
          obtain rfl : WorkerPc.wait = pc := by simpa [hk, WorkerPc.timedOut] using hpc
          exact .work hw (by rw [Worker.receiving, hk]) rfl
      | _ => simp [hk, WorkerPc.timedOut] at hpc
  | next hpc =>
      refine .work hw (by rw [Worker.receiving, hpc]) ?_
      unfold Worker.receiving
      dsimp only
      split_ifs <;> rfl
  | task hpc ht hm =>
      refine .work hw (by rw [Worker.receiving, hpc]) ?_
      unfold Worker.receiving Worker.remove
      dsimp only
      split_ifs <;> rfl
  | sidechannel hpc => exact .work hw (by rw [Worker.receiving, hpc]) rfl
  | refresh hpc => exact .work hw (by rw [Worker.receiving, hpc]) rfl
  | store hpc => exact .store hw hpc

theorem work_of_step {w : ℕ} {e : WorkerEvent Output}
    (h : (system Task Output oneWaitOnly).step s (.work w e) = some t) :
    ∃ k, s.workers[w]? = some k ∧ WorkEffect oneWaitOnly s w k e t := by
  obtain ⟨k, hw, hst⟩ := Option.bind_eq_some_iff.mp h
  exact ⟨k, hw, workEffect_of_workStep hst⟩

theorem send_of_step {i : ℕ} (h : (system Task Output oneWaitOnly).step s (.send i) = some t) :
    ∃ (info : WorkerSideInfo Task) (q : Fifo (WorkerSideInfo Task) 1),
      s.senders[i]? = some (.sending info) ∧ s.channel.items = [] ∧ q.items = [info] ∧
      t = { s with channel := q, senders := s.senders.set i .swapping } := by
  change s.step oneWaitOnly (.send i) = some t at h
  simp only [step] at h
  split at h
  · rename_i info hi
    obtain ⟨q, hq, rfl⟩ := Option.map_eq_some_iff.mp h
    obtain ⟨hlt, hitems⟩ := Fifo.push_eq_some.mp hq
    have hemp : s.channel.items = [] := List.length_eq_zero_iff.mp (by omega)
    rw [hemp, List.nil_append] at hitems
    exact ⟨info, q, hi, hemp, hitems, rfl⟩
  · cases h

theorem effect_of_step {a : PoolLabel Task Output}
    (h : (system Task Output oneWaitOnly).step s a = some t) : Effect s a t := by
  change s.step oneWaitOnly a = some t at h
  cases a with
  | submit info =>
      cases h
      exact .submit info
  | send i =>
      obtain ⟨info, q, hi, hc, -, rfl⟩ :=
        send_of_step (show (system Task Output oneWaitOnly).step s (.send i) = some t from h)
      exact .send hi hc
  | swap i old =>
      simp only [step] at h
      split at h
      · rename_i hi
        by_cases hold : s.threadLaunched = old
        · subst hold
          rw [if_pos rfl] at h
          cases h
          exact .swap hi
        · rw [if_neg hold] at h
          cases h
      · cases h
  | spawn i =>
      simp only [step] at h
      split at h <;> cases h
      exact .spawn ‹_›
  | wake i =>
      simp only [step] at h
      split at h <;> cases h
      exact .wake ‹_›
  | work w e =>
      obtain ⟨k, hw, hst⟩ := Option.bind_eq_some_iff.mp h
      exact effect_of_workStep hw hst

end Pool
end Kiruna.BlockParty
