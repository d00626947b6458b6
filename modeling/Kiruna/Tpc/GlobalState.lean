import Kiruna.Tpc.BinStep

/-!
# The threads of the bin

`thread_counts` is the one counter from which callers decide how many workers to launch, and from
which an idle worker decides whether it may exit. A call first raises the counter, then launches
the threads it has promised, and then sends; the timer asks up to half the threads to shut down.

`spawn_mixed`, `spawn_mixed_simple` and the first polls of the two guards are the callers. A thread
may make a call at any time, so a call from inside a job is one of them.
-/

namespace Kiruna.Tpc

structure ThreadCounts where
  userWaiting : UInt16
  deriving DecidableEq

namespace ThreadCounts

def new : ThreadCounts := ⟨0⟩

/-- `From<u64>`. -/
def ofUInt64 (u : UInt64) : ThreadCounts := ⟨(u &&& 0xffffffff).toUInt16⟩

/-- `From<ThreadCounts> for u64`. -/
def toUInt64 (t : ThreadCounts) : UInt64 := t.userWaiting.toUInt64

theorem toNat_ofUInt64 (u : UInt64) : (ofUInt64 u).userWaiting.toNat = u.toNat % 2 ^ 16 := by
  have hmask : (0xffffffff : UInt64).toNat = 2 ^ 32 - 1 := rfl
  rw [ofUInt64, UInt64.toNat_toUInt16, UInt64.toNat_and, hmask, Nat.and_two_pow_sub_one_eq_mod]
  omega

theorem ofUInt64_toUInt64 (t : ThreadCounts) : ofUInt64 t.toUInt64 = t := by
  have hlt := t.userWaiting.toNat_lt
  have hnat := toNat_ofUInt64 t.toUInt64
  rw [toUInt64, UInt16.toNat_toUInt64, Nat.mod_eq_of_lt hlt] at hnat
  exact congrArg ThreadCounts.mk (UInt16.toNat_inj.mp hnat)

end ThreadCounts

def userWaitingMinThreads : UInt16 := 1

structure GlobalState where
  physicalCpus : UInt16
  threadCounts : UInt64
  deriving DecidableEq

namespace GlobalState

def new (physicalCpus : UInt16) : GlobalState := ⟨physicalCpus, ThreadCounts.new.toUInt64⟩

def readThreadCounts (g : GlobalState) : ThreadCounts := .ofUInt64 g.threadCounts

/-- `AtomicU64::fetch_update` of the counter: the state after it and the value before it, which is
an error when the closure returns `None`. -/
def fetchUpdate (g : GlobalState) (f : UInt64 → Option UInt64) :
    GlobalState × Except UInt64 UInt64 :=
  match f g.threadCounts with
  | some u => ({ g with threadCounts := u }, .ok g.threadCounts)
  | none => (g, .error g.threadCounts)

def updateThreadCounts (g : GlobalState) (atomicFn : ThreadCounts → ThreadCounts) :
    GlobalState × Except ThreadCounts ThreadCounts :=
  let r := g.fetchUpdate fun arg =>
    let outArg := (atomicFn (.ofUInt64 arg)).toUInt64
    if arg ≠ outArg then some outArg else none
  (r.1, match r.2 with
    | .ok e => .ok (.ofUInt64 e)
    | .error e => .error (.ofUInt64 e))

/-- The update with which an idle worker asks whether it may exit. -/
def leave (t : ThreadCounts) : ThreadCounts :=
  if t.userWaiting > userWaitingMinThreads then ⟨t.userWaiting - 1⟩ else t

/-- `proposed_threads` of `enforce_spare_thread_policy`. -/
def proposedThreads (g : GlobalState) (comingSoon : ℕ) : UInt16 :=
  UInt16.ofNat (min comingSoon g.physicalCpus.toNat)

/-- The update of `enforce_spare_thread_policy`. -/
def enforce (g : GlobalState) (comingSoon : ℕ) : GlobalState × Except UInt64 UInt64 :=
  g.fetchUpdate fun threadCounts =>
    let threadCount := ThreadCounts.ofUInt64 threadCounts
    if threadCount.userWaiting ≥ g.proposedThreads comingSoon then none
    else some { threadCount with userWaiting := g.proposedThreads comingSoon }.toUInt64

variable {g : GlobalState} {comingSoon : ℕ}

theorem fetchUpdate_of_some {f : UInt64 → Option UInt64} {u : UInt64}
    (h : f g.threadCounts = some u) :
    g.fetchUpdate f = ({ g with threadCounts := u }, .ok g.threadCounts) := by
  simp only [fetchUpdate, h]

theorem fetchUpdate_of_none {f : UInt64 → Option UInt64} (h : f g.threadCounts = none) :
    g.fetchUpdate f = (g, .error g.threadCounts) := by
  simp only [fetchUpdate, h]

theorem enforce_of_lt (hlt : g.readThreadCounts.userWaiting < g.proposedThreads comingSoon) :
    g.enforce comingSoon =
      ({ g with threadCounts := (ThreadCounts.mk (g.proposedThreads comingSoon)).toUInt64 },
        .ok g.threadCounts) := by
  apply fetchUpdate_of_some
  exact if_neg (UInt16.not_le.mpr hlt)

theorem enforce_of_le (hle : g.proposedThreads comingSoon ≤ g.readThreadCounts.userWaiting) :
    g.enforce comingSoon = (g, .error g.threadCounts) := by
  apply fetchUpdate_of_none
  exact if_pos hle

/-- One of several threads may leave. -/
theorem updateThreadCounts_leave_of_lt (hlt : 1 < g.readThreadCounts.userWaiting) :
    g.updateThreadCounts leave = ({ g with
      threadCounts := (ThreadCounts.mk (g.readThreadCounts.userWaiting - 1)).toUInt64 },
      .ok g.readThreadCounts) := by
  have hleave : leave g.readThreadCounts = ⟨g.readThreadCounts.userWaiting - 1⟩ := if_pos hlt
  have hne : g.threadCounts ≠ (leave g.readThreadCounts).toUInt64 := by
    intro heq
    have hcounts := congrArg ThreadCounts.ofUInt64 heq
    rw [ThreadCounts.ofUInt64_toUInt64, hleave] at hcounts
    have hnat := congrArg (fun t => t.userWaiting.toNat) hcounts
    change g.readThreadCounts.userWaiting.toNat = _ at hnat
    rw [UInt16.toNat_sub_of_le _ _ (UInt16.le_of_lt hlt)] at hnat
    have hpos := UInt16.lt_iff_toNat_lt.mp hlt
    change 1 < _ at hpos
    change _ = _ - 1 at hnat
    omega
  rw [← hleave, updateThreadCounts, fetchUpdate_of_some (if_pos hne)]
  rfl

/-- The last one may not. -/
theorem updateThreadCounts_leave_of_le (hle : g.readThreadCounts.userWaiting ≤ 1)
    (henc : g.readThreadCounts.toUInt64 = g.threadCounts) :
    g.updateThreadCounts leave = (g, .error g.readThreadCounts) := by
  have hleave : leave g.readThreadCounts = g.readThreadCounts :=
    if_neg (UInt16.not_lt.mpr hle)
  have heq : ¬ g.threadCounts ≠ (leave g.readThreadCounts).toUInt64 := by
    rw [hleave, henc]
    exact fun hne => hne rfl
  rw [updateThreadCounts, fetchUpdate_of_none (if_neg heq)]
  rfl

theorem toNat_proposedThreads (g : GlobalState) (comingSoon : ℕ) :
    (g.proposedThreads comingSoon).toNat = min comingSoon g.physicalCpus.toNat := by
  have hlt := g.physicalCpus.toNat_lt
  rw [proposedThreads, UInt16.toNat_ofNat', Nat.mod_eq_of_lt (by omega)]

end GlobalState

/-- A call that brings work to the bin, with what it sends. -/
inductive Call (Fut Job : Type*)
  | spawnMixed (futures : List Fut)
  | spawnMixedSimple (jobs : List Job)
  | setScoped (tasks : List Fut)
  | setSimpleScoped (jobs : UInt32) (job : ℕ → Job)

namespace Call

variable {Fut Job : Type*}

/-- The argument of `enforce_spare_thread_policy`. -/
def comingSoon : Call Fut Job → ℕ
  | spawnMixed futures => futures.length
  | spawnMixedSimple jobs => jobs.length
  | setScoped tasks => tasks.length
  | setSimpleScoped jobs _ => jobs.toNat

def messages : Call Fut Job → List (Fut ⊕ Job)
  | spawnMixed futures => futures.map .inl
  | spawnMixedSimple jobs => jobs.map .inr
  | setScoped tasks => tasks.map .inl
  | setSimpleScoped jobs job => (List.range jobs.toNat).map fun j => .inr (job j)

/-- The conversion of the number of tasks to `u32` panics, after the threads were launched. -/
def panics : Call Fut Job → Bool
  | setScoped tasks => 2 ^ 32 ≤ tasks.length
  | _ => false

theorem length_messages (c : Call Fut Job) : c.messages.length = c.comingSoon := by
  cases c <;> simp [messages, comingSoon]

end Call

/-- Where a call stands: before the update of the counter, in the loop that launches threads, or in
the loop that sends. It has `overflowed` in the subtraction that computes `launch_amount`, or has
`panicked` in a conversion or a send. -/
inductive CallPc (Fut Job : Type*)
  | enforce (call : Call Fut Job)
  | launch (call : Call Fut Job) (left : ℕ)
  | send (left : List (Fut ⊕ Job))
  | overflowed
  | panicked

/-- The bin, the global state, the calls that were made and the timer callbacks that have fired,
each with the number of idle messages it has still to send. -/
structure Threads (Fut Job Local State : Type*) (bounded : ℕ) where
  global : GlobalState
  bin : Bin Fut Job Local State bounded
  calls : List (CallPc Fut Job)
  timers : List ℕ

/-- A thread makes a call; the call with the given number makes its next step; the timer fires; a
callback sends its next idle message; a worker looks at an idle message, after its idle time has
`elapsed` or before; or the bin makes a step of its own. -/
inductive ThreadsLabel (Fut Job Action : Type*)
  | enter (call : Call Fut Job)
  | call (c : ℕ)
  | timer
  | sendIdle (i : ℕ)
  | idle (w : ℕ) (elapsed : Bool)
  | bin (a : BinLabel Action Empty)

namespace Threads

variable {Fut Job Local State Action : Type*} {bounded : ℕ}

def setCall (s : Threads Fut Job Local State bounded) (c : ℕ) (pc : CallPc Fut Job) :
    Threads Fut Job Local State bounded :=
  { s with calls := s.calls.set c pc }

def setBin (s : Threads Fut Job Local State bounded) (b : Bin Fut Job Local State bounded) :
    Threads Fut Job Local State bounded :=
  { s with bin := b }

variable (C : Client Fut Job Local State Action Empty)

def new (physicalCpus : UInt16) (bounded : ℕ) : Threads Fut Job Local State bounded where
  global := .new physicalCpus
  bin := .new C bounded
  calls := []
  timers := []

/-- The message of a spawn. -/
def message (s : Threads Fut Job Local State bounded) : Fut ⊕ Job → ThreadMessage Job
  | .inl _ => .work s.bin.futures.length
  | .inr j => .simple j

/-- The next step of the call at `pc`, which has the number `c`. -/
def callStep (s : Threads Fut Job Local State bounded) (c : ℕ) :
    CallPc Fut Job → Option (Threads Fut Job Local State bounded)
  | .enforce call =>
      let r := s.global.enforce call.comingSoon
      let s' := { s with global := r.1 }
      match r.2 with
      | .ok oldThreads =>
          let proposed := s.global.proposedThreads call.comingSoon
          let old := (ThreadCounts.ofUInt64 oldThreads).userWaiting
          if old ≤ proposed then some (s'.setCall c (.launch call (proposed - old).toNat))
          else some (s'.setCall c .overflowed)
      | .error _ => some (s'.setCall c (.launch call 0))
  | .launch call (left + 1) =>
      (s.bin.step C .startWorker).map fun b => (s.setBin b).setCall c (.launch call left)
  | .launch call 0 => some (s.setCall c (if call.panics then .panicked else .send call.messages))
  | .send (m :: left) =>
      match s.bin.send (s.message m) 1 with
      | none => some (s.setCall c .panicked)
      | some _ => some ((s.setBin (s.bin.spawn C m)).setCall c (.send left))
  | .send [] | .overflowed | .panicked => none

/-- The thread that looks at an idle message exits if its update has changed the counter. The steps
of the bin that launch a worker, end one or send an idle message have labels of their own. -/
def step (s : Threads Fut Job Local State bounded) :
    ThreadsLabel Fut Job Action → Option (Threads Fut Job Local State bounded)
  | .enter call => some { s with calls := s.calls ++ [.enforce call] }
  | .call c => s.calls[c]?.bind fun pc => s.callStep C c pc
  | .timer =>
      let userWaiting := s.global.readThreadCounts.userWaiting
      some { s with timers := s.timers ++
        [if userWaiting > userWaitingMinThreads then (userWaiting / 2).toNat else 0] }
  | .sendIdle i =>
      match s.timers[i]? with
      | some (left + 1) =>
          match s.bin.send .idle 1 with
          | none => some { s with timers := s.timers.set i 0 }
          | some c => some { s.setBin (s.bin.setChannel c) with timers := s.timers.set i left }
      | _ => none
  | .idle w true =>
      let r := s.global.updateThreadCounts GlobalState.leave
      (s.bin.step C (.work w (.idle r.2.isOk))).map fun b => { s.setBin b with global := r.1 }
  | .idle w false => (s.bin.step C (.work w (.idle false))).map s.setBin
  | .bin .startWorker | .bin .sendIdle | .bin (.owner _) | .bin (.work _ (.idle _)) => none
  | .bin a => (s.bin.step C a).map s.setBin

def system (physicalCpus : UInt16) (bounded : ℕ) :
    Lts (Threads Fut Job Local State bounded) (ThreadsLabel Fut Job Action) where
  init := new C physicalCpus bounded
  step := step C

end Threads
end Kiruna.Tpc
