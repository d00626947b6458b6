import Kiruna.BlockParty.Relaunch

/-!
# The side channel

The worker replaces the side channel after a wait, reads greedily, and waits again on the new one.
A sender sends and then wakes the current one. While the worker waits, an info in the channel is
announced on the very instance it waits on, or its sender is still about to wake that instance.

There is one worker at a time, across all launches. If every wait is followed by a replacement, no
instance is waited on twice.
-/

namespace Kiruna.BlockParty

variable {Task Output : Type*}

/-- The send is complete, the wake has still to come if the flag was set. -/
def SenderPc.notifying : SenderPc Task → ℕ
  | .swapping | .waking => 1
  | _ => 0

/-- The worker is blocked in `wait_any` or about to call it. -/
def Worker.waiting (k : Worker Task) : ℕ :=
  match k.pc with
  | .wait => 1
  | _ => 0

/-- The worker has waited on the current side channel and will replace it. -/
def Worker.spending (k : Worker Task) : ℕ :=
  match k.pc with
  | .wait | .refresh => 1
  | _ => 0

theorem Worker.waiting_of_running {k : Worker Task} (h : k.running = 0) : k.waiting = 0 := by
  unfold running at h
  unfold waiting
  split at h <;> simp_all

theorem Worker.running_of_waiting {k : Worker Task} (h : k.pc = .wait) : k.running = 1 := by
  rw [running, h]

namespace Pool

open Lts (Free)

variable {oneWaitOnly : Bool} {s t : Pool Task Output} {a : PoolLabel Task Output}
  {h : List (PoolLabel Task Output)} {ok : Pool Task Output → PoolLabel Task Output → Prop}

theorem WorkEffect.running {w : ℕ} {k : Worker Task} {e : WorkerEvent Output}
    (he : WorkEffect oneWaitOnly s w k e t) : k.running = 1 := by
  unfold Worker.running
  cases he with
  | take hq hpc => cases hk : k.pc <;> simp_all [WorkerPc.received]
  | timeout hc hpc => cases hk : k.pc <;> simp_all [WorkerPc.timedOut]
  | next hpc => rw [hpc]
  | task hpc ht hm => rw [hpc]
  | sidechannel hpc => rw [hpc]
  | refresh hpc => rw [hpc]
  | store hpc => rw [hpc]

theorem Single.launching_eq_zero (hs : Single s) {w : ℕ} {k : Worker Task}
    (hw : s.workers[w]? = some k) (hk : k.running = 1) :
    s.threadLaunched = true ∧ weight SenderPc.launching s.senders = 0 ∧
      weight Worker.running s.workers = 1 := by
  have hle := le_weight (w := Worker.running) hw
  have hflag := s.threadLaunched.toNat_le
  unfold Single at hs
  refine ⟨?_, by omega, by omega⟩
  cases hf : s.threadLaunched with
  | true => rfl
  | false =>
      rw [hf, Bool.toNat_false] at hs
      omega

/-- Two running workers are the same one. -/
theorem Single.eq (hs : Single s) {v w : ℕ} {j k : Worker Task} (hv : s.workers[v]? = some j)
    (hj : j.running = 1) (hw : s.workers[w]? = some k) (hk : k.running = 1) : v = w := by
  obtain ⟨-, -, hone⟩ := hs.launching_eq_zero hv hj
  exact eq_of_weight_le_one (w := Worker.running) (by omega) hv hw (by omega) (by omega)

/-- An info in the channel is announced to the worker that waits. -/
def Announced (s : Pool Task Output) : Prop :=
  0 < weight Worker.waiting s.workers → s.channel.items ≠ [] →
    s.sideChannel ∈ s.woken ∨ 0 < weight SenderPc.notifying s.senders

theorem announced_work (hs : Single s) {w : ℕ} {k : Worker Task}
    {e : WorkerEvent Output} (hw : s.workers[w]? = some k)
    (he : WorkEffect oneWaitOnly s w k e t) : Announced t := by
  obtain ⟨-, -, hone⟩ := hs.launching_eq_zero hw he.running
  have halone : weight Worker.waiting s.workers = k.waiting :=
    weight_eq_of_alone hw (hone.trans he.running.symm) fun _ => Worker.waiting_of_running
  have hquiet : ∀ k' : Worker Task, k'.waiting = 0 →
      ¬ 0 < weight Worker.waiting (s.workers.set w k') := by
    intro k' hk'
    have hset := weight_set (w := Worker.waiting) k' hw
    omega
  intro hpos hne
  cases he with
  | @take info q pc hq hpc =>
      refine absurd hpos (hquiet _ ?_)
      cases hk : k.pc <;> simp [hk, WorkerPc.received] at hpc <;> subst hpc <;> rfl
  | timeout hc hpc => exact absurd hc hne
  | next hpc =>
      refine absurd hpos (hquiet _ ?_)
      by_cases hemp : k.tasks.isEmpty <;> simp [Worker.waiting, hemp]
  | task hpc ht hm =>
      refine absurd hpos (hquiet _ ?_)
      by_cases ho : oneWaitOnly <;> simp [Worker.waiting, Worker.remove, ho]
  | sidechannel hpc => exact absurd hpos (hquiet _ rfl)
  | refresh hpc => exact absurd hpos (hquiet _ rfl)
  | store hpc => exact absurd hpos (hquiet _ rfl)

theorem announced_step (hs : Single s) (hn : Announced s)
    (hst : (system Task Output oneWaitOnly).step s a = some t) : Announced t := by
  cases a with
  | work w e =>
      obtain ⟨k, hw, he⟩ := work_of_step hst
      exact announced_work hs hw he
  | submit info =>
      cases hst
      simpa [Announced, SenderPc.notifying] using hn
  | send i =>
      obtain ⟨info, q, hi, hemp, hq, rfl⟩ := send_of_step hst
      intro hpos hne
      have hnotify := le_weight (w := SenderPc.notifying) (l := s.senders.set i .swapping)
        (List.getElem?_set_self (List.getElem?_eq_some_iff.mp hi).1)
      exact .inr hnotify
  | swap i old =>
      cases effect_of_step hst with
      | swap hi =>
          intro hpos hne
          obtain ⟨w, k, hw, hk⟩ := exists_of_weight_pos hpos
          have hrun : k.running = 1 := by
            unfold Worker.waiting at hk
            split at hk
            · exact Worker.running_of_waiting ‹_›
            · omega
          obtain ⟨hflag, -, -⟩ := hs.launching_eq_zero hw hrun
          have hset := weight_set (w := SenderPc.notifying) .waking hi
          simp only [SenderPc.notifying] at hset
          rcases hn hpos hne with hwoken | hnotify
          · exact .inl hwoken
          · right
            simp only [hflag, if_true]
            omega
  | spawn i =>
      cases effect_of_step hst with
      | spawn hi =>
          intro hpos hne
          have hpos : 0 < weight Worker.waiting s.workers := by
            simpa [Worker.waiting] using hpos
          have hset := weight_set (w := SenderPc.notifying) .returned hi
          simp only [SenderPc.notifying] at hset
          rcases hn hpos hne with hwoken | hnotify
          · exact .inl hwoken
          · right
            dsimp only
            omega
  | wake i =>
      cases effect_of_step hst with
      | wake hi =>
          intro hpos hne
          exact .inl (List.mem_append_right _ List.mem_cons_self)

theorem announced_of_path (hp : (system Task Output oneWaitOnly).Run ok h s) : Announced s := by
  have hboth : Single s ∧ Announced s := by
    refine hp.invariant (P := fun s => Single s ∧ Announced s) ?_ ⟨single_new, ?_⟩
    · intro t a u ht _ hst
      exact ⟨single_effect ht.1 (effect_of_step hst), announced_step ht.1 ht.2 hst⟩
    · intro hpos
      exact absurd hpos (Nat.lt_irrefl 0)
  exact hboth.2

/-- As long as the worker `w` does not move, the sender `i` has its next step open or has returned
and woken the instance that was current in `s`. -/
def WillWake (oneWaitOnly : Bool) (s : Pool Task Output) (w i : ℕ) : Prop :=
  ∀ (tr : List (PoolLabel Task Output)) (t : Pool Task Output),
    (system Task Output oneWaitOnly).Path Free s tr t → (∀ e, .work w e ∉ tr) →
    (t.senders[i]? = some .swapping ∧ (t.step oneWaitOnly (.swap i true)).isSome) ∨
    (t.senders[i]? = some .waking ∧ (t.step oneWaitOnly (.wake i)).isSome) ∨
    (t.senders[i]? = some .returned ∧ s.sideChannel ∈ t.woken)

/-- The only notification of a task in the channel is not discarded. -/
def Handshake (oneWaitOnly : Bool) (s : Pool Task Output) : Prop :=
  ∀ (w : ℕ) (k : Worker Task), s.workers[w]? = some k → k.pc = .wait → s.channel.items ≠ [] →
    s.sideChannel ∈ s.woken ∨
    ∃ i, (s.senders[i]? = some .swapping ∨ s.senders[i]? = some .waking) ∧
      s.WillWake oneWaitOnly w i

/-- The worker `w` has stayed in its wait since `s`, and the sender `i` is on its way. -/
structure OnItsWay (s : Pool Task Output) (w i : ℕ) (t : Pool Task Output) : Prop where
  single : Single t
  worker : ∃ k, t.workers[w]? = some k ∧ k.pc = .wait
  sideChannel : t.sideChannel = s.sideChannel
  sender : t.senders[i]? = some .swapping ∨ t.senders[i]? = some .waking ∨
    (t.senders[i]? = some .returned ∧ s.sideChannel ∈ t.woken)

/-- Where a sender on its way is after a sender `j` has moved to `pc`. -/
theorem OnItsWay.sender_set {r : Pool Task Output} {w i j : ℕ} (hr : OnItsWay r w i s)
    {pc pc' : SenderPc Task} (hj : s.senders[j]? = some pc) {l : List ℕ}
    (hl : ∀ n ∈ s.woken, n ∈ l)
    (hself : j = i → pc' = .swapping ∨ pc' = .waking ∨ (pc' = .returned ∧ r.sideChannel ∈ l)) :
    (s.senders.set j pc')[i]? = some .swapping ∨ (s.senders.set j pc')[i]? = some .waking ∨
      ((s.senders.set j pc')[i]? = some .returned ∧ r.sideChannel ∈ l) := by
  by_cases hji : j = i
  · rw [hji, List.getElem?_set_self (List.getElem?_eq_some_iff.mp (hji ▸ hj)).1]
    simpa only [Option.some.injEq] using hself hji
  · rw [List.getElem?_set_ne hji]
    rcases hr.sender with hi | hi | ⟨hi, hmem⟩
    · exact .inl hi
    · exact .inr (.inl hi)
    · exact .inr (.inr ⟨hi, hl _ hmem⟩)

theorem OnItsWay.step {r : Pool Task Output} {w i : ℕ} (hr : OnItsWay r w i s)
    (ha : ∀ e, a ≠ .work w e) (hst : (system Task Output oneWaitOnly).step s a = some t) :
    OnItsWay r w i t := by
  have hsingle := single_effect hr.single (effect_of_step hst)
  obtain ⟨k, hw, hk⟩ := hr.worker
  obtain ⟨hflag, hlaunch, -⟩ := hr.single.launching_eq_zero hw (Worker.running_of_waiting hk)
  cases a with
  | work v e =>
      obtain ⟨j, hv, he⟩ := work_of_step hst
      obtain rfl := hr.single.eq hv he.running hw (Worker.running_of_waiting hk)
      exact absurd rfl (ha e)
  | submit info =>
      cases hst
      refine ⟨hsingle, ⟨k, hw, hk⟩, hr.sideChannel, ?_⟩
      have hkeep : ∀ pc, s.senders[i]? = some pc → (s.senders ++ [.sending info])[i]? = some pc :=
        fun pc hi => (List.getElem?_append_left (List.getElem?_eq_some_iff.mp hi).1).trans hi
      rcases hr.sender with hi | hi | ⟨hi, hmem⟩
      · exact .inl (hkeep _ hi)
      · exact .inr (.inl (hkeep _ hi))
      · exact .inr (.inr ⟨hkeep _ hi, hmem⟩)
  | send j =>
      obtain ⟨info, q, hj, hemp, hq, rfl⟩ := send_of_step hst
      exact ⟨hsingle, ⟨k, hw, hk⟩, hr.sideChannel,
        hr.sender_set hj (fun _ hn => hn) fun _ => .inl rfl⟩
  | swap j old =>
      cases effect_of_step hst with
      | swap hj =>
          refine ⟨hsingle, ⟨k, hw, hk⟩, hr.sideChannel,
            hr.sender_set hj (fun _ hn => hn) fun _ => .inr (.inl ?_)⟩
          rw [hflag, if_pos rfl]
  | spawn j =>
      cases effect_of_step hst with
      | spawn hj =>
          have hle := le_weight (w := SenderPc.launching) hj
          simp only [SenderPc.launching] at hle
          omega
  | wake j =>
      cases effect_of_step hst with
      | wake hj =>
          refine ⟨hsingle, ⟨k, hw, hk⟩, hr.sideChannel,
            hr.sender_set hj (fun _ hn => List.mem_append_left _ hn)
              fun _ => .inr (.inr ⟨rfl, ?_⟩)⟩
          rw [hr.sideChannel]
          exact List.mem_append_right _ List.mem_cons_self

theorem OnItsWay.path {w i : ℕ} (hs : OnItsWay s w i s) {tr : List (PoolLabel Task Output)}
    (hp : (system Task Output oneWaitOnly).Path Free s tr t) (htr : ∀ e, .work w e ∉ tr) :
    OnItsWay s w i t := by
  have hkeep : (∀ e, .work w e ∉ tr) → OnItsWay s w i t := by
    refine hp.induct (P := fun tr t => (∀ e, .work w e ∉ tr) → OnItsWay s w i t) (fun _ => hs) ?_
    intro tr t a u _ ht _ hst htr
    apply (ht fun e hmem => htr e (List.mem_cons_of_mem _ hmem)).step _ hst
    rintro e rfl
    exact htr e List.mem_cons_self
  exact hkeep htr

theorem OnItsWay.willWake {w i : ℕ} (hs : OnItsWay s w i s) : s.WillWake oneWaitOnly w i := by
  intro tr t hp htr
  have ht := hs.path hp htr
  obtain ⟨k, hw, hk⟩ := ht.worker
  obtain ⟨hflag, -, -⟩ := ht.single.launching_eq_zero hw (Worker.running_of_waiting hk)
  rcases ht.sender with hi | hi | hi
  · exact .inl ⟨hi, by simp [Pool.step, hi, hflag]⟩
  · exact .inr (.inl ⟨hi, by simp [Pool.step, hi]⟩)
  · exact .inr (.inr hi)

/-- The second task is sent while the worker waits on the first one. -/
def sendWhileWaiting : List (PoolLabel ℕ ℕ) :=
  [.submit ⟨0, 0⟩, .send 0, .swap 0 false, .spawn 0, .work 0 .take, .work 0 .timeout,
    .work 0 .next, .work 0 .timeout, .submit ⟨1, 1⟩, .send 1]

/-- The step is a call of `wait_any`: the greedy read has found the channel empty. -/
def CallsWaitAny (s : Pool Task Output) (a : PoolLabel Task Output) : Prop :=
  ∃ w k, a = .work w .timeout ∧ s.workers[w]? = some k ∧ k.pc = .read

/-- The worker has been launched and has not stored `false`, or it is about to be launched. -/
def Launched (s : Pool Task Output) : Prop :=
  (∃ k ∈ s.workers, k.running = 1) ∨ .spawning ∈ s.senders

/-- There is at most one worker, over all launches, and its waits never share an instance if it
may be waited on only once. -/
structure OneWorker (oneWaitOnly : Bool) (s : Pool Task Output) : Prop where
  unique : ∀ (v w : ℕ) (j k : Worker Task), s.workers[v]? = some j → s.workers[w]? = some k →
    j.running = 1 → k.running = 1 → v = w
  alone : ∀ i : ℕ, s.senders[i]? = some .spawning → (∀ k ∈ s.workers, k.running = 0) ∧
    ∀ j : ℕ, s.senders[j]? = some .spawning → j = i
  launched : s.threadLaunched = true ↔ s.Launched
  disjoint : ∀ (v w : ℕ) (j k : Worker Task), s.workers[v]? = some j → s.workers[w]? = some k →
    j.pc = .wait → k.pc = .wait → v = w
  fresh : oneWaitOnly = true → ∀ (a b : PoolLabel Task Output) (t s' t' : Pool Task Output)
    (tr : List (PoolLabel Task Output)), s.CallsWaitAny a → s.step oneWaitOnly a = some t →
    (system Task Output oneWaitOnly).Path Free t tr s' → s'.CallsWaitAny b →
    s'.step oneWaitOnly b = some t' → s'.sideChannel ≠ s.sideChannel

theorem Single.launched (hs : Single s) : s.threadLaunched = true ↔ s.Launched := by
  constructor
  · intro hf
    rw [Single, hf, Bool.toNat_true] at hs
    rcases Nat.eq_zero_or_pos (weight Worker.running s.workers) with hz | hpos
    · obtain ⟨i, pc, hi, hpc⟩ := exists_of_weight_pos (w := SenderPc.launching) (l := s.senders)
        (by omega)
      cases pc with
      | spawning => exact .inr (List.mem_of_getElem? hi)
      | _ => exact absurd hpc (Nat.lt_irrefl 0)
    · obtain ⟨w, k, hw, hk⟩ := exists_of_weight_pos hpos
      have hle := le_weight (w := Worker.running) hw
      exact .inl ⟨k, List.mem_of_getElem? hw, by omega⟩
  · rintro (⟨k, hk, hrun⟩ | hmem)
    · obtain ⟨w, hw⟩ := List.mem_iff_getElem?.mp hk
      exact (hs.launching_eq_zero hw hrun).1
    · have hle := le_weight_of_mem (w := SenderPc.launching) hmem
      simp only [SenderPc.launching] at hle
      unfold Single at hs
      cases hf : s.threadLaunched with
      | true => rfl
      | false =>
          rw [hf, Bool.toNat_false] at hs
          omega

theorem Single.alone (hs : Single s) {i : ℕ} (hi : s.senders[i]? = some .spawning) :
    (∀ k ∈ s.workers, k.running = 0) ∧ ∀ j : ℕ, s.senders[j]? = some .spawning → j = i := by
  have hle := le_weight (w := SenderPc.launching) hi
  have hflag := s.threadLaunched.toNat_le
  simp only [SenderPc.launching] at hle
  unfold Single at hs
  constructor
  · apply weight_eq_zero.mp
    omega
  · intro j hj
    exact eq_of_weight_le_one (w := SenderPc.launching) (by omega) hj hi Nat.one_pos Nat.one_pos

/-- The instance `n` has been passed to `wait_any`, and no later call gets it. -/
def Spent (n : ℕ) (s : Pool Task Output) : Prop :=
  n < s.sideChannel ∨ (s.sideChannel = n ∧ 0 < weight Worker.spending s.workers)

theorem Spent.set {n w : ℕ} {k k' : Worker Task} (hs : Spent n s) (hw : s.workers[w]? = some k)
    (hside : t.sideChannel = s.sideChannel) (ht : t.workers = s.workers.set w k')
    (hle : k.spending ≤ k'.spending) : Spent n t := by
  rcases hs with hlt | ⟨heq, hpos⟩
  · exact .inl (hside ▸ hlt)
  · have hset := weight_set (w := Worker.spending) k' hw
    refine .inr ⟨hside.trans heq, ?_⟩
    rw [ht]
    omega

theorem spent_step {n : ℕ} (hs : Spent n s)
    (hst : (system Task Output true).step s a = some t) : Spent n t := by
  cases a with
  | work w e =>
      obtain ⟨k, hw, he⟩ := work_of_step hst
      cases he with
      | take hq hpc =>
          refine hs.set hw rfl rfl ?_
          unfold Worker.spending
          cases hk : k.pc <;> simp_all [WorkerPc.received]
      | timeout hc hpc =>
          refine hs.set hw rfl rfl ?_
          unfold Worker.spending
          cases hk : k.pc <;> simp_all [WorkerPc.timedOut]
      | next hpc =>
          refine hs.set hw rfl rfl ?_
          simp [Worker.spending, hpc]
      | task hpc ht hm =>
          refine hs.set hw rfl rfl ?_
          simp [Worker.spending, Worker.remove, hpc]
      | sidechannel hpc =>
          refine hs.set hw rfl rfl ?_
          simp [Worker.spending, hpc]
      | refresh hpc =>
          left
          rcases hs with hlt | ⟨heq, -⟩
          · exact Nat.lt_succ_of_lt hlt
          · exact heq ▸ Nat.lt_succ_self _
      | store hpc =>
          refine hs.set hw rfl rfl ?_
          simp [Worker.spending, hpc]
  | spawn i =>
      cases effect_of_step hst with
      | spawn hi => simpa [Spent, Worker.spending] using hs
  | submit info =>
      cases hst
      exact hs
  | send i =>
      obtain ⟨info, q, hi, hemp, hq, rfl⟩ := send_of_step hst
      exact hs
  | swap i old =>
      cases effect_of_step hst with
      | swap hi => exact hs
  | wake i =>
      cases effect_of_step hst with
      | wake hi => exact hs

theorem spent_of_call (hcall : s.CallsWaitAny a)
    (hst : (system Task Output oneWaitOnly).step s a = some t) : Spent s.sideChannel t := by
  obtain ⟨w, k, rfl, hw, hk⟩ := hcall
  obtain ⟨j, hj, he⟩ := work_of_step hst
  obtain rfl : j = k := Option.some.inj (hj.symm.trans hw)
  cases he with
  | @timeout pc hc hpc =>
      obtain rfl : WorkerPc.wait = pc := by simpa [hk, WorkerPc.timedOut] using hpc
      have hpos := le_weight (w := Worker.spending) (l := s.workers.set w { j with pc := .wait })
        (List.getElem?_set_self (List.getElem?_eq_some_iff.mp hw).1)
      exact .inr ⟨rfl, hpos⟩

theorem Spent.not_passed {n : ℕ} (hs : Spent n s) (hsingle : Single s) (hcall : s.CallsWaitAny a) :
    s.sideChannel ≠ n := by
  rcases hs with hlt | ⟨-, hpos⟩
  · exact Nat.ne_of_gt hlt
  · obtain ⟨v, j, hv, hj⟩ := exists_of_weight_pos hpos
    obtain ⟨w, k, -, hw, hk⟩ := hcall
    have hrun : j.running = 1 := by
      unfold Worker.spending at hj
      unfold Worker.running
      split at hj <;> simp_all
    obtain rfl := hsingle.eq hv hrun hw (by rw [Worker.running, hk])
    obtain rfl : j = k := Option.some.inj (hv.symm.trans hw)
    simp [Worker.spending, hk] at hj

/-- The pool has at most one worker, and no instance of a side channel that may be waited on once
is passed to two calls of `wait_any`. -/
theorem oneWorker_of_reachable (hr : (system Task Output oneWaitOnly).Reachable s) :
    s.OneWorker oneWaitOnly := by
  obtain ⟨h, hrun⟩ := hr
  have hs := single_of_path single_new hrun
  refine ⟨fun v w j k hv hw hj hk => hs.eq hv hj hw hk, fun i hi => hs.alone hi, hs.launched,
    fun v w j k hv hw hj hk =>
      hs.eq hv (Worker.running_of_waiting hj) hw (Worker.running_of_waiting hk), ?_⟩
  rintro rfl a b t s' t' tr hcall hst hpath hcall' -
  have ht := single_effect hs (effect_of_step hst)
  have hspent : Spent s.sideChannel s' :=
    hpath.invariant (fun _ _ _ hu _ hst => spent_step hu hst) (spent_of_call hcall hst)
  exact hspent.not_passed (single_of_path ht hpath) hcall'

/-- A worker has shut down and a second one waits. -/
def relaunch : List (PoolLabel ℕ ℕ) :=
  [.submit ⟨0, 0⟩, .send 0, .swap 0 false, .spawn 0, .work 0 .take, .work 0 .timeout,
    .work 0 .next, .work 0 .timeout, .work 0 (.task 0 23), .work 0 .refresh, .work 0 .next,
    .work 0 .timeout, .work 0 .store, .submit ⟨1, 1⟩, .send 1, .swap 1 false, .spawn 1,
    .work 1 .take, .work 1 .timeout, .work 1 .next, .work 1 .timeout]

theorem oneWorker_relaunch :
    OneWorker true
      (⟨.empty, true, 1, [], [.returned, .returned], [⟨.gone, [], []⟩, ⟨.wait, [1], [1]⟩],
        [(0, 23)]⟩ : Pool ℕ ℕ) :=
  oneWorker_of_reachable ⟨relaunch.reverse, Lts.path_of_exec _ (by decide)⟩

end Pool
end Kiruna.BlockParty
