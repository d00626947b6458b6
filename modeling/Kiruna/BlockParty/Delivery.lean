import Kiruna.BlockParty.Relaunch

/-!
# Delivery of the outputs

Every future makes its own mailbox. From its submission on an info is in exactly one place: with
its sender, in the channel, in the pair of vectors of a worker, or completed. The two vectors are
pushed to and removed from together, so the output that `wait_any` reports for an index goes to the
mailbox of the task at that index.
-/

namespace Kiruna.BlockParty

variable {Task Output : Type*}

/-- The sender still has the info of the mailbox `m`. -/
def SenderPc.holds (m : ℕ) : SenderPc Task → ℕ
  | .sending info => if info.mailbox = m then 1 else 0
  | _ => 0

/-- The vectors of the worker hold the mailbox `m`, counted with multiplicity. -/
def Worker.holds (m : ℕ) (k : Worker Task) : ℕ :=
  weight (fun n => if n = m then 1 else 0) k.mailboxes

namespace Worker

variable {k : Worker Task} {pc : WorkerPc} {P Q : WorkerSideInfo Task → Prop}

/-- The vectors are parallel and hold only infos with `P`; `wait_any` is called with a non-empty
slice, and the loop is left with empty vectors. -/
structure Sound (P : WorkerSideInfo Task → Prop) (k : Worker Task) : Prop where
  parallel : k.tasks.length = k.mailboxes.length
  own : ∀ (i : ℕ) (task : Task) (m : ℕ), k.tasks[i]? = some task → k.mailboxes[i]? = some m →
    P ⟨task, m⟩
  busy : k.pc = .read ∨ k.pc = .wait → k.tasks ≠ []
  idle : k.pc = .longRead ∨ k.pc = .leaving ∨ k.pc = .gone → k.tasks = []

theorem Sound.mono (hk : k.Sound P) (hPQ : ∀ info, P info → Q info) : k.Sound Q where
  parallel := hk.parallel
  own i task m ht hm := hPQ _ (hk.own i task m ht hm)
  busy := hk.busy
  idle := hk.idle

theorem Sound.mailbox (hk : k.Sound P) {i : ℕ} {task : Task} (ht : k.tasks[i]? = some task) :
    ∃ m, k.mailboxes[i]? = some m := by
  have hlt := (List.getElem?_eq_some_iff.mp ht).1
  rw [hk.parallel] at hlt
  exact ⟨_, List.getElem?_eq_getElem hlt⟩

theorem Sound.goto (hk : k.Sound P) (hbusy : pc = .read ∨ pc = .wait → k.tasks ≠ [])
    (hidle : pc = .longRead ∨ pc = .leaving ∨ pc = .gone → k.tasks = []) :
    Sound P { k with pc := pc } where
  parallel := hk.parallel
  own := hk.own
  busy := hbusy
  idle := hidle

theorem Sound.timeout (hk : k.Sound P) (hpc : k.pc.timedOut = some pc) :
    Sound P { k with pc := pc } := by
  cases hp : k.pc <;> simp only [hp, WorkerPc.timedOut, reduceCtorEq, Option.some.injEq] at hpc <;>
    subst hpc
  · exact hk.goto (by simp) (by simp)
  · exact hk.goto (fun _ => hk.busy (.inl hp)) (by simp)
  · exact hk.goto (by simp) fun _ => hk.idle (.inl hp)

theorem Sound.next (hk : k.Sound P) :
    Sound P { k with pc := if k.tasks.isEmpty then .longRead else .read } := by
  by_cases he : k.tasks = []
  · rw [if_pos (List.isEmpty_iff.mpr he)]
    exact hk.goto (by simp) fun _ => he
  · rw [if_neg (mt List.isEmpty_iff.mp he)]
    exact hk.goto (fun _ => he) (by simp)

theorem Sound.push (hk : k.Sound P) {info : WorkerSideInfo Task} (hP : P info)
    (hpc : k.pc.received = some pc) : (k.push info pc).Sound P where
  parallel := by simp [Worker.push, hk.parallel]
  own i task m ht hm := by
    have hlen := hk.parallel
    rcases getElem?_append_cases ht with ht | ⟨hi, rfl⟩
    · rcases getElem?_append_cases hm with hm | ⟨hi, rfl⟩
      · exact hk.own i task m ht hm
      · have hlt := (List.getElem?_eq_some_iff.mp ht).1
        omega
    · rcases getElem?_append_cases hm with hm | ⟨-, rfl⟩
      · have hlt := (List.getElem?_eq_some_iff.mp hm).1
        omega
      · exact hP
  busy _ := by simp [Worker.push]
  idle hp := by
    have hne : pc ≠ .longRead ∧ pc ≠ .leaving ∧ pc ≠ .gone := by
      cases hk : k.pc <;> simp [hk, WorkerPc.received] at hpc <;> subst hpc <;> simp
    rcases hp with hp | hp | hp
    · exact absurd hp hne.1
    · exact absurd hp hne.2.1
    · exact absurd hp hne.2.2

theorem Sound.remove (hk : k.Sound P) {idx : ℕ} (hpc : pc = .refresh ∨ pc = .head) :
    (k.remove idx pc).Sound P where
  parallel := by
    have hlen := hk.parallel
    simp only [Worker.remove, List.length_eraseIdx, hlen]
  own i task m ht hm := by
    simp only [Worker.remove, List.getElem?_eraseIdx] at ht hm
    by_cases hi : i < idx
    · rw [if_pos hi] at ht hm
      exact hk.own i task m ht hm
    · rw [if_neg hi] at ht hm
      exact hk.own (i + 1) task m ht hm
  busy hp := by
    rcases hpc with rfl | rfl <;> simp [Worker.remove] at hp
  idle hp := by
    rcases hpc with rfl | rfl <;> simp [Worker.remove] at hp

end Worker

namespace Pool

variable {oneWaitOnly : Bool} {s t : Pool Task Output} {a : PoolLabel Task Output}
  {h : List (PoolLabel Task Output)} {m : ℕ}

/-- The infos are submitted with mailboxes of their own, numbered in the order of submission. -/
def OwnMailbox (s : Pool Task Output) : PoolLabel Task Output → Prop
  | .submit info => info.mailbox = s.senders.length
  | _ => True

instance : ∀ (s : Pool Task Output) (a : PoolLabel Task Output), Decidable (s.OwnMailbox a)
  | s, .submit info => inferInstanceAs (Decidable (info.mailbox = s.senders.length))
  | _, .send _ | _, .swap _ _ | _, .spawn _ | _, .wake _ | _, .work _ _ => isTrue trivial

def inHand (m : ℕ) (s : Pool Task Output) : ℕ := weight (SenderPc.holds m) s.senders

def inChannel (m : ℕ) (s : Pool Task Output) : ℕ :=
  weight (fun info => if info.mailbox = m then 1 else 0) s.channel.items

def inVectors (m : ℕ) (s : Pool Task Output) : ℕ := weight (Worker.holds m) s.workers

def completed (m : ℕ) (s : Pool Task Output) : ℕ :=
  weight (fun p => if p.1 = m then 1 else 0) s.mailed

/-- The places where the info of the mailbox `m` is. -/
def places (m : ℕ) (s : Pool Task Output) : ℕ :=
  s.inHand m + s.inChannel m + s.inVectors m + s.completed m

/-- What a step adds to the places of the mailbox `m`. -/
def submits (m : ℕ) : PoolLabel Task Output → ℕ
  | .submit info => if info.mailbox = m then 1 else 0
  | _ => 0

theorem inVectors_set (m : ℕ) {w : ℕ} {k : Worker Task} (k' : Worker Task)
    (hw : s.workers[w]? = some k) :
    weight (Worker.holds m) (s.workers.set w k') + k.holds m = s.inVectors m + k'.holds m :=
  weight_set k' hw

/-- A step that leaves the mailboxes where they are. -/
theorem places_move {w : ℕ} {k k' : Worker Task} (hw : s.workers[w]? = some k)
    (ht : t.workers = s.workers.set w k') (hk : k'.mailboxes = k.mailboxes)
    (hs : t.senders = s.senders) (hc : t.channel = s.channel) (hm : t.mailed = s.mailed) :
    t.places m = s.places m := by
  have hv := inVectors_set m k' hw
  have hh : k'.holds m = k.holds m := by rw [Worker.holds, hk, Worker.holds]
  unfold places
  simp only [inHand, inChannel, inVectors, completed, hs, hc, hm, ht] at hv ⊢
  omega

theorem places_work {w : ℕ} {k : Worker Task} {e : WorkerEvent Output}
    (hw : s.workers[w]? = some k) (he : WorkEffect oneWaitOnly s w k e t) :
    t.places m = s.places m := by
  cases he with
  | @take info q pc hq hpc =>
      have hv := inVectors_set m (k.push info pc) hw
      have hk : (k.push info pc).holds m =
          k.holds m + (if info.mailbox = m then 1 else 0) := by
        simp [Worker.holds, Worker.push]
      have hc : s.inChannel m = (if info.mailbox = m then 1 else 0) +
          weight (fun i => if i.mailbox = m then 1 else 0) q.items := by
        rw [inChannel, hq, weight_cons]
      unfold places
      rw [hc]
      simp only [inHand, inChannel, inVectors, completed] at hv ⊢
      omega
  | @task idx output task mailbox hpc ht hm =>
      have hv := inVectors_set m (k.remove idx (if oneWaitOnly then .refresh else .head)) hw
      have hk : (k.remove idx (if oneWaitOnly then .refresh else .head)).holds m +
          (if mailbox = m then 1 else 0) = k.holds m :=
        weight_eraseIdx hm
      unfold places
      simp only [inHand, inChannel, inVectors, completed, weight_append, weight_cons,
        weight_nil] at hv ⊢
      omega
  | timeout hc hpc => exact places_move hw rfl rfl rfl rfl rfl
  | next hpc => exact places_move hw rfl rfl rfl rfl rfl
  | sidechannel hpc => exact places_move hw rfl rfl rfl rfl rfl
  | refresh hpc => exact places_move hw rfl rfl rfl rfl rfl
  | store hpc => exact places_move hw rfl rfl rfl rfl rfl

theorem inHand_set (m : ℕ) {i : ℕ} {pc : SenderPc Task} (pc' : SenderPc Task)
    (hi : s.senders[i]? = some pc) :
    weight (SenderPc.holds m) (s.senders.set i pc') + pc.holds m = s.inHand m + pc'.holds m :=
  weight_set pc' hi

theorem places_step (hst : (system Task Output oneWaitOnly).step s a = some t) :
    t.places m = s.places m + submits m a := by
  cases a with
  | work w e =>
      obtain ⟨k, hw, he⟩ := work_of_step hst
      exact places_work hw he
  | send i =>
      obtain ⟨info, q, hi, hc, hq, rfl⟩ := send_of_step hst
      have hh := inHand_set m .swapping hi
      unfold places submits
      simp only [inHand, inChannel, inVectors, completed, hc, hq, weight_cons, weight_nil,
        SenderPc.holds] at hh ⊢
      omega
  | submit info =>
      cases hst
      unfold places submits
      simp only [inHand, inChannel, inVectors, completed, weight_append, weight_cons, weight_nil,
        SenderPc.holds]
      omega
  | swap i old =>
      cases effect_of_step hst with
      | swap hi =>
          have hh := inHand_set m (if s.threadLaunched then .waking else .spawning) hi
          have hz : SenderPc.holds m (if s.threadLaunched then .waking else .spawning :
              SenderPc Task) = 0 := by
            split_ifs <;> rfl
          rw [hz] at hh
          unfold places submits
          simp only [inHand, inChannel, inVectors, completed, SenderPc.holds] at hh ⊢
          omega
  | spawn i =>
      cases effect_of_step hst with
      | spawn hi =>
          have hh := inHand_set m .returned hi
          unfold places submits
          simp only [inHand, inChannel, inVectors, completed, SenderPc.holds, weight_append,
            weight_cons, weight_nil, Worker.holds] at hh ⊢
          omega
  | wake i =>
      cases effect_of_step hst with
      | wake hi =>
          have hh := inHand_set m .returned hi
          unfold places submits
          simp only [inHand, inChannel, inVectors, completed, SenderPc.holds] at hh ⊢
          omega

/-- The info was submitted. -/
def Submitted (h : List (PoolLabel Task Output)) (info : WorkerSideInfo Task) : Prop :=
  .submit info ∈ h

structure Custody (h : List (PoolLabel Task Output)) (s : Pool Task Output) : Prop where
  hand : ∀ (i : ℕ) (info : WorkerSideInfo Task), s.senders[i]? = some (.sending info) →
    Submitted h info
  channel : ∀ info ∈ s.channel.items, Submitted h info
  workers : ∀ k ∈ s.workers, k.Sound (Submitted h)
  numbered : ∀ info, Submitted h info → info.mailbox < s.senders.length
  places : ∀ m, s.places m = if m < s.senders.length then 1 else 0

theorem custody_new : Custody [] (new : Pool Task Output) where
  hand i info hi := by simp [new] at hi
  channel info hi := by simp [new] at hi
  workers k hk := by simp [new] at hk
  numbered info hi := by simp [Submitted] at hi
  places m := rfl

theorem sound_work {P : WorkerSideInfo Task → Prop} {w : ℕ} {k : Worker Task}
    {e : WorkerEvent Output} (hw : s.workers[w]? = some k) (hk : ∀ k ∈ s.workers, k.Sound P)
    (hc : ∀ info ∈ s.channel.items, P info) (he : WorkEffect oneWaitOnly s w k e t) :
    (∀ k ∈ t.workers, k.Sound P) ∧ (∀ info ∈ t.channel.items, P info) ∧ t.senders = s.senders := by
  have hs := hk k (List.mem_of_getElem? hw)
  cases he with
  | take hq hpc =>
      refine ⟨forall_mem_set hk (hs.push ?_ hpc), fun info hi => ?_, rfl⟩
      · apply hc
        rw [hq]
        exact List.mem_cons_self
      · apply hc
        rw [hq]
        exact List.mem_cons_of_mem _ hi
  | timeout hemp hpc => exact ⟨forall_mem_set hk (hs.timeout hpc), hc, rfl⟩
  | next hpc => exact ⟨forall_mem_set hk hs.next, hc, rfl⟩
  | task hpc ht hm =>
      refine ⟨forall_mem_set hk (hs.remove ?_), hc, rfl⟩
      by_cases ho : oneWaitOnly
      · exact .inl (if_pos ho)
      · exact .inr (if_neg ho)
  | sidechannel hpc => exact ⟨forall_mem_set hk (hs.goto (by simp) (by simp)), hc, rfl⟩
  | refresh hpc => exact ⟨forall_mem_set hk (hs.goto (by simp) (by simp)), hc, rfl⟩
  | store hpc =>
      exact ⟨forall_mem_set hk (hs.goto (by simp) fun _ => hs.idle (.inr (.inl hpc))), hc, rfl⟩

theorem Submitted.of_cons {info : WorkerSideInfo Task} (hi : Submitted (a :: h) info) :
    a = .submit info ∨ Submitted h info := by
  rcases List.mem_cons.mp hi with hi | hi
  · exact .inl hi.symm
  · exact .inr hi

theorem custody_submit {info : WorkerSideInfo Task} (hc : Custody h s)
    (hok : info.mailbox = s.senders.length)
    (hst : (system Task Output oneWaitOnly).step s (.submit info) = some t) :
    Custody (.submit info :: h) t := by
  have hp := fun m => places_step (m := m) hst
  cases hst
  have hkeep : ∀ i, Submitted h i → Submitted (.submit info :: h) i :=
    fun i hi => List.mem_cons_of_mem _ hi
  refine ⟨fun i info' hi => ?_, fun i hi => hkeep i (hc.channel i hi),
    fun k hk => (hc.workers k hk).mono hkeep, fun i hi => ?_, fun m => ?_⟩
  · rcases getElem?_append_cases hi with hi | ⟨-, he⟩
    · exact hkeep info' (hc.hand i info' hi)
    · obtain rfl := SenderPc.sending.inj he
      exact List.mem_cons_self
  · rw [List.length_append, List.length_singleton]
    rcases hi.of_cons with he | hi
    · obtain rfl := PoolLabel.submit.inj he
      omega
    · have hlt := hc.numbered i hi
      omega
  · rw [hp m, hc.places m, List.length_append, List.length_singleton]
    simp only [submits]
    split_ifs <;> omega

theorem Custody.keep (hc : Custody h s) (ha : ∀ info, a ≠ .submit info)
    (hst : (system Task Output oneWaitOnly).step s a = some t)
    (hlen : t.senders.length = s.senders.length)
    (hhand : ∀ (i : ℕ) (info : WorkerSideInfo Task), t.senders[i]? = some (.sending info) →
      Submitted h info)
    (hchan : ∀ info ∈ t.channel.items, Submitted h info)
    (hwork : ∀ k ∈ t.workers, k.Sound (Submitted h)) : Custody (a :: h) t where
  hand i info hi := List.mem_cons_of_mem _ (hhand i info hi)
  channel info hi := List.mem_cons_of_mem _ (hchan info hi)
  workers k hk := (hwork k hk).mono fun _ hi => List.mem_cons_of_mem _ hi
  numbered info hi := by
    rw [hlen]
    rcases hi.of_cons with he | hi
    · exact absurd he (ha info)
    · exact hc.numbered info hi
  places m := by
    have hz : submits m a = 0 := by
      cases a with
      | submit info => exact absurd rfl (ha info)
      | _ => rfl
    rw [places_step hst, hz, Nat.add_zero, hlen]
    exact hc.places m

theorem Custody.hand_set (hc : Custody h s) {i : ℕ} {pc : SenderPc Task}
    (hpc : ∀ info, pc ≠ .sending info) :
    ∀ (j : ℕ) (info : WorkerSideInfo Task), (s.senders.set i pc)[j]? = some (.sending info) →
      Submitted h info := by
  intro j info hj
  rcases getElem?_set_cases hj with ⟨-, he⟩ | ⟨-, hj⟩
  · exact absurd he.symm (hpc info)
  · exact hc.hand j info hj

theorem custody_step (hc : Custody h s) (hok : s.OwnMailbox a)
    (hst : (system Task Output oneWaitOnly).step s a = some t) : Custody (a :: h) t := by
  cases a with
  | submit info => exact custody_submit hc hok hst
  | send i =>
      obtain ⟨info, q, hi, hemp, hq, rfl⟩ := send_of_step hst
      refine hc.keep nofun hst (List.length_set ..) (hc.hand_set nofun) ?_ hc.workers
      intro info' hmem
      dsimp only at hmem
      rw [hq, List.mem_singleton] at hmem
      subst hmem
      exact hc.hand i _ hi
  | swap i old =>
      cases effect_of_step hst with
      | swap hi =>
          refine hc.keep nofun hst (List.length_set ..) (hc.hand_set ?_) hc.channel hc.workers
          intro info
          split_ifs <;> exact nofun
  | spawn i =>
      cases effect_of_step hst with
      | spawn hi =>
          refine hc.keep nofun hst (List.length_set ..) (hc.hand_set nofun) hc.channel ?_
          intro k hk
          rcases List.mem_append.mp hk with hk | hk
          · exact hc.workers k hk
          · obtain rfl := List.mem_singleton.mp hk
            exact ⟨rfl, nofun, by simp, fun _ => rfl⟩
  | wake i =>
      cases effect_of_step hst with
      | wake hi =>
          exact hc.keep nofun hst (List.length_set ..) (hc.hand_set nofun) hc.channel hc.workers
  | work w e =>
      obtain ⟨k, hw, he⟩ := work_of_step hst
      obtain ⟨hwork, hchan, hsend⟩ := sound_work hw hc.workers hc.channel he
      refine hc.keep nofun hst (by rw [hsend]) ?_ hchan hwork
      rw [hsend]
      exact hc.hand

theorem custody_of_run (hr : (system Task Output oneWaitOnly).Run OwnMailbox h s) :
    Custody h s :=
  hr.induct (P := Custody) custody_new fun _ _ _ _ _ hc hok hst => custody_step hc hok hst

/-- The vectors of the worker hold the task and the mailbox at one index. -/
def Keeps (k : Worker Task) (task : Task) (m : ℕ) : Prop :=
  ∃ i : ℕ, k.tasks[i]? = some task ∧ k.mailboxes[i]? = some m

theorem keeps_remove {k : Worker Task} {task : Task} {i idx : ℕ} {pc : WorkerPc} (hne : i ≠ idx)
    (ht : k.tasks[i]? = some task) (hm : k.mailboxes[i]? = some m) :
    Keeps (k.remove idx pc) task m := by
  by_cases hi : i < idx
  · refine ⟨i, ?_, ?_⟩
    · rw [Worker.remove, List.getElem?_eraseIdx_of_lt hi, ht]
    · rw [Worker.remove, List.getElem?_eraseIdx_of_lt hi, hm]
  · obtain ⟨j, rfl⟩ : ∃ j, i = j + 1 := ⟨i - 1, by omega⟩
    refine ⟨j, ?_, ?_⟩
    · rw [Worker.remove, List.getElem?_eraseIdx_of_ge (by omega), ht]
    · rw [Worker.remove, List.getElem?_eraseIdx_of_ge (by omega), hm]

theorem keeps_push {k : Worker Task} {task : Task} {i : ℕ} {info : WorkerSideInfo Task}
    {pc : WorkerPc} (ht : k.tasks[i]? = some task) (hm : k.mailboxes[i]? = some m) :
    Keeps (k.push info pc) task m := by
  refine ⟨i, ?_, ?_⟩
  · rw [Worker.push, List.getElem?_append_left (List.getElem?_eq_some_iff.mp ht).1, ht]
  · rw [Worker.push, List.getElem?_append_left (List.getElem?_eq_some_iff.mp hm).1, hm]

/-- A task leaves the vectors of its worker only through its own report. -/
theorem keeps_of_step {w i : ℕ} {k : Worker Task} {task : Task}
    (hst : (system Task Output oneWaitOnly).step s a = some t) (hw : s.workers[w]? = some k)
    (ht : k.tasks[i]? = some task) (hm : k.mailboxes[i]? = some m) :
    (∃ output, a = .work w (.task i output)) ∨ ∃ k', t.workers[w]? = some k' ∧ Keeps k' task m := by
  have hlt := (List.getElem?_eq_some_iff.mp hw).1
  cases a with
  | work v e =>
      obtain ⟨k', hv, he⟩ := work_of_step hst
      by_cases hvw : v = w
      · subst hvw
        obtain rfl : k' = k := Option.some.inj (hv.symm.trans hw)
        cases he with
        | take hq hpc => exact .inr ⟨_, List.getElem?_set_self hlt, keeps_push ht hm⟩
        | @task idx output _ _ hpc _ _ =>
            by_cases hi : i = idx
            · subst hi
              exact .inl ⟨output, rfl⟩
            · exact .inr ⟨_, List.getElem?_set_self hlt, keeps_remove hi ht hm⟩
        | _ => exact .inr ⟨_, List.getElem?_set_self hlt, i, ht, hm⟩
      · refine .inr ⟨k, ?_, i, ht, hm⟩
        cases he <;> exact (List.getElem?_set_ne hvw).trans hw
  | spawn j =>
      cases effect_of_step hst with
      | spawn hi => exact .inr ⟨k, (List.getElem?_append_left hlt).trans hw, i, ht, hm⟩
  | _ =>
      cases effect_of_step hst
      exact .inr ⟨k, hw, i, ht, hm⟩

/-- Every output goes to its own future. -/
structure Delivers (oneWaitOnly : Bool) (h : List (PoolLabel Task Output))
    (s : Pool Task Output) : Prop where
  parallel : ∀ k ∈ s.workers, k.tasks.length = k.mailboxes.length
  own : ∀ k ∈ s.workers, ∀ (i : ℕ) (task : Task) (m : ℕ), k.tasks[i]? = some task →
    k.mailboxes[i]? = some m → Submitted h ⟨task, m⟩
  once : ∀ info, Submitted h info →
    s.inHand info.mailbox + s.inChannel info.mailbox + s.inVectors info.mailbox +
      s.completed info.mailbox = 1
  slice : ∀ k ∈ s.workers, k.pc = .wait → k.tasks ≠ []
  mailed : ∀ (w idx : ℕ) (k : Worker Task) (task : Task) (output : Output),
    s.workers[w]? = some k → k.pc = .wait → k.tasks[idx]? = some task →
    ∃ m t, Submitted h ⟨task, m⟩ ∧ (∀ p ∈ s.mailed, p.1 ≠ m) ∧
      s.step oneWaitOnly (.work w (.task idx output)) = some t ∧
      t.mailed = s.mailed ++ [(m, output)]
  kept : ∀ (a : PoolLabel Task Output) (t : Pool Task Output) (w i : ℕ) (k : Worker Task)
    (task : Task) (m : ℕ), s.step oneWaitOnly a = some t → s.workers[w]? = some k →
    k.tasks[i]? = some task → k.mailboxes[i]? = some m →
    (∃ output, a = .work w (.task i output)) ∨ ∃ k', t.workers[w]? = some k' ∧ Keeps k' task m
  finished : ∀ k ∈ s.workers, k.pc = .leaving ∨ k.pc = .gone → k.tasks = []

theorem Custody.once (hc : Custody h s) {info : WorkerSideInfo Task} (hi : Submitted h info) :
    s.places info.mailbox = 1 := by
  rw [hc.places, if_pos (hc.numbered info hi)]

theorem Custody.not_mailed (hc : Custody h s) {w idx : ℕ} {k : Worker Task}
    (hw : s.workers[w]? = some k) (hm : k.mailboxes[idx]? = some m) :
    ∀ p ∈ s.mailed, p.1 ≠ m := by
  intro p hp he
  have hone : s.inHand m + s.inChannel m + s.inVectors m + s.completed m ≤ 1 := by
    have hplaces := hc.places m
    unfold Pool.places at hplaces
    split_ifs at hplaces <;> omega
  have hk := le_weight (w := Worker.holds m) hw
  have hidx := le_weight (w := fun n => if n = m then 1 else 0) hm
  have hmailed := le_weight_of_mem (w := fun q : ℕ × Output => if q.1 = m then 1 else 0) hp
  simp only [he, if_true] at hidx hmailed
  simp only [inVectors, completed, Worker.holds] at hone hk
  omega

theorem delivers_of_run (hr : (system Task Output oneWaitOnly).Run OwnMailbox h s) :
    Delivers oneWaitOnly h s := by
  have hc := custody_of_run hr
  refine ⟨fun k hk => (hc.workers k hk).parallel, fun k hk => (hc.workers k hk).own,
    fun info hi => hc.once hi, fun k hk hpc => (hc.workers k hk).busy (.inr hpc), ?_,
    fun _ _ _ _ _ _ _ hst => keeps_of_step hst, fun k hk hpc => (hc.workers k hk).idle (.inr hpc)⟩
  intro w idx k task output hw hpc ht
  have hs := hc.workers k (List.mem_of_getElem? hw)
  obtain ⟨m, hm⟩ := hs.mailbox ht
  have hst : s.step oneWaitOnly (.work w (.task idx output)) = some { s with
      mailed := s.mailed ++ [(m, output)]
      workers := s.workers.set w (k.remove idx (if oneWaitOnly then .refresh else .head)) } := by
    simp only [step, hw, Option.bind_some, workStep, hpc, ht, hm, Worker.remove]
  exact ⟨m, _, hs.own idx task m ht hm, hc.not_mailed hw hm, hst, rfl⟩

/-- Two futures, the first one still pending when the second one has been mailed. -/
def twoFutures : List (PoolLabel ℕ ℕ) :=
  [.submit ⟨1, 0⟩, .send 0, .swap 0 false, .spawn 0, .work 0 .take, .submit ⟨2, 1⟩, .send 1,
    .work 0 .take, .work 0 .timeout, .work 0 .next, .work 0 .timeout, .work 0 (.task 1 23)]

theorem delivers_twoFutures :
    Delivers false twoFutures.reverse
      (⟨.empty, true, 0, [], [.returned, .swapping], [⟨.head, [1], [0]⟩], [(1, 23)]⟩ :
        Pool ℕ ℕ) :=
  delivers_of_run (Lts.path_of_exec twoFutures (by decide))

end Pool
end Kiruna.BlockParty
