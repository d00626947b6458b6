import Kiruna.Tpc.AssemblyRefinement
import Kiruna.Tpc.ChannelDelivery
import Mathlib.Algebra.Order.BigOperators.Group.Finset

/-!
# The executor over its channel strands no message

The calls of the channel that are under way get to their end by themselves. So while a queue holds
a message and a worker is in its receive loop, the signals and the receive calls alone bring some
worker the first message of a level, and when nothing of the executor can move, either no queue
holds a message or every worker that has not exited is inside the code of a client or has panicked.
-/

namespace Kiruna.Tpc

/-- The signals that a send call has still to give. -/
def SendPc.toGo {α : Type*} : SendPc α → ℕ
  | .signalLocal _ _ => 2
  | .signalGlobal _ _ => 1
  | _ => 0

namespace Channel

variable {α : Type*} {bounded levels : ℕ} {s t : Channel α bounded} {h : List (ChannelLabel α)}

/-- A call that is to signal a level, or to pop from it, has found it in the channel. -/
structure InRange (s : Channel α bounded) : Prop where
  signals : ∀ (i : ℕ) (m : Message α) (l : ℕ), s.senders[i]? = some (.signalLocal m l) →
    l < s.shared.length
  pops : ∀ j l : ℕ, s.receivers[j]? = some (.pop l) → l < s.shared.length

theorem InRange.setSender (hs : InRange s) {i : ℕ} {pc : SendPc α}
    {shared : List (SharedOne α bounded)} (hlen : shared.length = s.shared.length) (g : ℕ)
    (hpc : ∀ m l, pc = .signalLocal m l → l < s.shared.length) :
    InRange ⟨shared, g, s.senders.set i pc, s.receivers⟩ where
  signals := by
    intro k m l hk
    rw [hlen]
    rcases getElem?_set_cases hk with ⟨-, heq⟩ | ⟨-, hk⟩
    · exact hpc m l heq.symm
    · exact hs.signals k m l hk
  pops := by
    intro k l hk
    rw [hlen]
    exact hs.pops k l hk

theorem InRange.setReceiver (hs : InRange s) {j : ℕ} {pc : RecvPc α}
    {shared : List (SharedOne α bounded)} (hlen : shared.length = s.shared.length) (g : ℕ)
    (hpc : ∀ l, pc = .pop l → l < s.shared.length) :
    InRange ⟨shared, g, s.senders, s.receivers.set j pc⟩ where
  signals := by
    intro k m l hk
    rw [hlen]
    exact hs.signals k m l hk
  pops := by
    intro k l hk
    rw [hlen]
    rcases getElem?_set_cases hk with ⟨-, heq⟩ | ⟨-, hk⟩
    · exact hpc l heq.symm
    · exact hs.pops k l hk

theorem InRange.effect (hs : InRange s) (he : Effect s t) : InRange t := by
  cases he with
  | send e l =>
      refine ⟨fun i m l' hi => ?_, hs.pops⟩
      rcases getElem?_append_cases hi with hi | ⟨-, heq⟩
      · exact hs.signals i m l' hi
      · cases heq
  | recv hpc =>
      refine ⟨hs.signals, fun j l hj => ?_⟩
      rcases getElem?_append_cases hj with hj | ⟨-, heq⟩
      · exact hs.pops j l hj
      · rcases hpc with rfl | rfl <;> cases heq
  | sendPanicked => exact hs.setSender rfl _ (by simp)
  | push hi hl hq =>
      refine hs.setSender List.length_set _ ?_
      rintro m l ⟨⟩
      exact (List.getElem?_eq_some_iff.mp hl).1
  | signalLocal => exact hs.setSender List.length_set _ (by simp)
  | signalGlobal => exact hs.setSender rfl _ (by simp)
  | takeLocal hi hpc hl hn =>
      refine hs.setReceiver List.length_set _ ?_
      rintro l ⟨⟩
      exact (List.getElem?_eq_some_iff.mp hl).1
  | pop => exact hs.setReceiver List.length_set _ (by simp)
  | takeGlobal hi hpc | missLocal hi hpc | fallThrough hi hpc =>
      refine hs.setReceiver rfl _ ?_
      rcases hpc with ⟨-, rfl⟩ | ⟨-, -, rfl⟩ <;> simp
  | nothing | restore | popEmpty | recvReturned => exact hs.setReceiver rfl _ (by simp)

theorem inRange_of_run (hr : (system α bounded levels).Run OnlyLevelZero h s) : InRange s :=
  hr.invariant (fun _ _ _ hs hok hst => hs.effect (effect_of_step hok hst))
    ⟨by simp [system, new], by simp [system, new]⟩

/-- A send call that is part-way can go on, and comes closer to its end. -/
theorem InRange.exists_signal (hs : InRange s) {i : ℕ} {pc : SendPc α}
    (hi : s.senders[i]? = some pc) (hpc : 0 < pc.toGo) : ∃ t, s.step (.sendStep i) = some t ∧
      weight SendPc.toGo t.senders < weight SendPc.toGo s.senders := by
  have hset := fun pc' => weight_set (w := SendPc.toGo) pc' hi
  cases pc with
  | signalLocal m l =>
      have hlt := hs.signals i m l hi
      simp only [step, hi, Option.bind_some, sendStep, List.getElem?_eq_getElem hlt]
      refine ⟨_, rfl, ?_⟩
      have hgo := hset (.signalGlobal m l)
      simp only [SendPc.toGo] at hgo
      dsimp only
      omega
  | signalGlobal m l =>
      simp only [step, hi, Option.bind_some, sendStep]
      refine ⟨_, rfl, ?_⟩
      have hgo := hset (.returned m l)
      simp only [SendPc.toGo] at hgo
      dsimp only
      omega
  | push m l => exact absurd hpc (Nat.lt_irrefl 0)
  | returned m l => exact absurd hpc (Nat.lt_irrefl 0)
  | panicked => exact absurd hpc (Nat.lt_irrefl 0)

/-- A receive call that has not returned can go on, unless `recv_all` waits. -/
theorem InRange.exists_recvStep (hs : InRange s) {j : ℕ} {pc : RecvPc α}
    (hj : s.receivers[j]? = some pc) (hpc : pc.Unpanicked) (hreturned : ∀ r, pc ≠ .returned r)
    (hall : pc = .all → s.globalSemaphore ≠ 0) : ∃ t, s.step (.recvStep j) = some t := by
  simp only [step, hj, Option.bind_some]
  cases pc with
  | immediate l =>
      simp only [recvStep]
      split <;> exact ⟨_, rfl⟩
  | immediateLocal l =>
      simp only [recvStep]
      split <;> exact ⟨_, rfl⟩
  | restore => exact ⟨_, rfl⟩
  | all =>
      simp only [recvStep]
      split
      · exact absurd ‹_› (hall rfl)
      · exact ⟨_, rfl⟩
  | scan l =>
      simp only [recvStep]
      split <;> exact ⟨_, rfl⟩
  | pop l =>
      simp only [recvStep, List.getElem?_eq_getElem (hs.pops j l hj)]
      split <;> exact ⟨_, rfl⟩
  | holding m l => exact ⟨_, rfl⟩
  | returned r => exact absurd rfl (hreturned r)
  | noElementFound | unwrapNone | indexOutOfBounds => exact hpc.elim

end Channel

namespace Assembly

open Lts (Free)

variable {Fut Job Local State Action : Type*} {bounded : ℕ} {cpus : UInt16}
  {C : Client Fut Job Local State Action Empty} {s t : Assembly Fut Job Local State bounded}
  {a : AssemblyLabel Fut Job Action} {h : List (AssemblyLabel Fut Job Action)}
  {ok : Assembly Fut Job Local State bounded → AssemblyLabel Fut Job Action → Prop}

/-- The steps of the calls of the channel. -/
def Internal (_ : Assembly Fut Job Local State bounded) : AssemblyLabel Fut Job Action → Prop
  | .threads _ => False
  | _ => True

theorem length_shared_of_run (hr : (system C cpus bounded).Run ok h s) :
    s.channel.shared.length = 2 := by
  obtain ⟨h', hthreads, -⟩ := threads_of_run hr
  obtain ⟨h'', hbin⟩ := Threads.bin_of_run hthreads
  have hlen : s.channel.contents.length = 2 := Bin.length_channel_of_run hbin
  rwa [Channel.contents, List.length_map] at hlen

theorem inRange_of_run (hr : (system C cpus bounded).Run ok h s) : s.channel.InRange := by
  obtain ⟨h', hc⟩ := channel_of_run hr
  exact Channel.inRange_of_run hc

/-- The steps that a worker has at most to go in its receive loop. -/
def phase (s : Assembly Fut Job Local State bounded) (w : ℕ) : ℕ :=
  match s.receiving w with
  | some j => s.channel.receivers[j]?.elim 0 (RecvPc.toGo 2)
  | none =>
      match s.threads.bin.workers[w]? with
      | some .recv => 12
      | _ => 0

/-- The steps that all calls have at most to go. -/
def toGo (s : Assembly Fut Job Local State bounded) : ℕ :=
  weight SendPc.toGo s.channel.senders +
    ∑ w ∈ Finset.range s.threads.bin.workers.length, s.phase w

theorem phase_congr {w : ℕ} (hthreads : t.threads = s.threads)
    (hreceiving : t.receiving w = s.receiving w)
    (hreceivers : ∀ j, s.receiving w = some j →
      t.channel.receivers[j]? = s.channel.receivers[j]?) : t.phase w = s.phase w := by
  simp only [phase, hreceiving, hthreads]
  cases hw : s.receiving w with
  | none => rfl
  | some j => simp only [hreceivers j hw]

/-- One worker comes closer to the end of its loop and no call moves back. -/
theorem toGo_lt {w : ℕ} {pc : WorkerPc Local} (hw : s.threads.bin.workers[w]? = some pc)
    (hthreads : t.threads = s.threads) (hsenders : t.channel.senders = s.channel.senders)
    (hreceiving : ∀ w', w' ≠ w → t.receiving w' = s.receiving w')
    (hreceivers : ∀ w' j, w' ≠ w → s.receiving w' = some j →
      t.channel.receivers[j]? = s.channel.receivers[j]?)
    (hlt : t.phase w < s.phase w) : t.toGo < s.toGo := by
  simp only [toGo, hsenders, hthreads]
  apply Nat.add_lt_add_left
  apply Finset.sum_lt_sum
  · intro w' _
    by_cases heq : w' = w
    · rw [heq]
      exact hlt.le
    · rw [phase_congr hthreads (hreceiving w' heq) fun j => hreceivers w' j heq]
  · exact ⟨w, Finset.mem_range.mpr (List.getElem?_eq_some_iff.mp hw).1, hlt⟩

theorem handle_ne_recv (C : Client Fut Job Local State Action Empty) (m : ThreadMessage Job) :
    Bin.handle C m ≠ .recv := by
  cases m <;> simp [Bin.handle]

/-- Every step of a call brings it closer to its end. -/
theorem toGo_lt_of_received (hr : (system C cpus bounded).Run ok h s) {w j : ℕ}
    {c : Channel (ThreadMessage Job) bounded} (hw : s.receiving w = some j)
    (hst : s.channel.step (.recvStep j) = some c) : (s.received C w j c).toGo < s.toGo := by
  have hs := linked_of_run hr
  obtain ⟨pc, hj, hplace, -⟩ := hs.receiving w j hw
  simp only [Channel.step, hj, Option.bind_some] at hst
  have hlt := (List.getElem?_eq_some_iff.mp hj).1
  have hother : ∀ pc', c.receivers = s.channel.receivers.set j pc' →
      (∀ w' j', w' ≠ w → s.receiving w' = some j' →
        c.receivers[j']? = s.channel.receivers[j']?) ∧ c.receivers[j]? = some pc' := by
    intro pc' hset
    rw [hset, List.getElem?_set_self hlt]
    refine ⟨?_, rfl⟩
    intro w' j' hne hj'
    apply List.getElem?_set_ne
    rintro rfl
    exact hne (hs.distinct w' w _ hj' hw)
  cases Channel.recvMoves_of_recvStep hst with
  | @pop l m hpc ht hsenders hcontents =>
      subst hpc
      obtain ⟨hothers, hat⟩ := hother _ ht
      rw [received_holding hat]
      have hphase : ∀ w', w' ≠ w → ({ s with
          threads := s.threads.setBin (s.threads.bin.setWorker w (Bin.handle C m.element))
          channel := c } : Assembly Fut Job Local State bounded).phase w' = s.phase w' := by
        intro w' hne
        simp only [phase, Threads.setBin, Bin.setWorker, List.getElem?_set_ne (Ne.symm hne)]
        cases hw' : s.receiving w' with
        | none => rfl
        | some j' => simp only [hothers w' j' hne hw']
      simp only [toGo, hsenders, Threads.setBin, Bin.setWorker, List.length_set]
      apply Nat.add_lt_add_left
      apply Finset.sum_lt_sum
      · intro w' _
        by_cases heq : w' = w
        · subst heq
          simp only [phase, hw, hat, hj, Option.elim_some, RecvPc.toGo]
          exact Nat.le_succ 1
        · exact (hphase w' heq).le
      · refine ⟨w, Finset.mem_range.mpr (List.getElem?_eq_some_iff.mp hplace).1, ?_⟩
        simp only [phase, hw, hat, hj, Option.elim_some, RecvPc.toGo]
        exact Nat.lt_succ_self 1
  | @quiet pc' ht hsenders hcontents hpc hholding hreturned hless =>
      obtain ⟨hothers, hat⟩ := hother pc' ht
      rw [received_quiet hat hholding hreturned]
      refine toGo_lt hplace rfl hsenders (fun _ _ => rfl) hothers ?_
      rw [length_shared_of_run hr] at hless
      simpa only [phase, hw, hat, hj, Option.elim_some] using hless
  | @returned m l hpc ht hsenders hcontents =>
      subst hpc
      obtain ⟨hothers, hat⟩ := hother _ ht
      rw [received_returned hat]
      refine toGo_lt hplace rfl hsenders (fun w' hw' => Function.update_of_ne hw' _ _) hothers ?_
      have hne := handle_ne_recv C m.element
      simp only [phase, Function.update_self, hplace, place, hw, hj, Option.elim_some, RecvPc.toGo]
      split
      · rename_i heq
        exact absurd (Option.some.inj heq) hne
      · exact Nat.one_pos

/-- A worker begins a receive call. -/
theorem toGo_lt_of_begin (hr : (system C cpus bounded).Run ok h s) {w : ℕ}
    {pc : RecvPc (ThreadMessage Job)} (hw : s.threads.bin.workers[w]? = some .recv)
    (hlt : pc.toGo 2 < s.phase w) : ({ s with
      channel := { s.channel with receivers := s.channel.receivers ++ [pc] }
      receiving := Function.update s.receiving w (some s.channel.receivers.length) } :
        Assembly Fut Job Local State bounded).toGo < s.toGo := by
  refine toGo_lt hw rfl rfl (fun w' hw' => Function.update_of_ne hw' _ _) ?_ ?_
  · intro w' j _ hj
    obtain ⟨pc', hpc', -⟩ := (linked_of_run hr).receiving w' j hj
    exact List.getElem?_append_left (List.getElem?_eq_some_iff.mp hpc').1
  · simpa only [phase, Function.update_self, List.getElem?_concat_length, Option.elim_some]
      using hlt

theorem toGo_lt_of_step (hr : (system C cpus bounded).Run ok h s) (ha : Internal s a)
    (hst : s.step C a = some t) : t.toGo < s.toGo := by
  have hs := linked_of_run hr
  cases a with
  | threads a => exact ha.elim
  | signal i =>
      simp only [step] at hst
      cases hi : s.channel.senders[i]? with
      | none => simp [hi] at hst
      | some pc =>
          have hpc : 0 < pc.toGo ∧
              (s.channel.step (.sendStep i)).map (fun c => { s with channel := c }) = some t := by
            cases pc with
            | signalLocal m l | signalGlobal m l =>
                simp only [hi] at hst
                exact ⟨by simp [SendPc.toGo], hst⟩
            | push m l | returned m l | panicked => simp [hi] at hst
          obtain ⟨hgo, hst⟩ := hpc
          obtain ⟨c, hc, rfl⟩ := Option.map_eq_some_iff.mp hst
          obtain ⟨c', hc', hlt⟩ := (inRange_of_run hr).exists_signal hi hgo
          obtain rfl : c = c' := Option.some.inj (hc.symm.trans hc')
          simp only [Channel.step, hi, Option.bind_some] at hc
          obtain ⟨-, hreceivers, -⟩ :=
            Channel.contents_of_signal (hs.pushed pc (List.mem_of_getElem? hi)) hc
          have hphase : ∀ w,
              ({ s with channel := c } : Assembly Fut Job Local State bounded).phase w =
                s.phase w := fun w => phase_congr rfl rfl fun j _ => by rw [hreceivers]
          simp only [toGo, hphase]
          exact Nat.add_lt_add_right hlt _
  | recvImmediate w =>
      simp only [step] at hst
      split at hst
      · rename_i hw
        split_ifs at hst with havailable
        cases hst
        apply toGo_lt_of_begin hr hw
        simp only [phase, receiving_of_available havailable, hw, RecvPc.toGo]
        omega
      · cases hst
  | recvAll w =>
      simp only [step] at hst
      split at hst
      · rename_i hj
        obtain ⟨j, hw, hj⟩ := Option.bind_eq_some_iff.mp hj
        cases hst
        apply toGo_lt_of_begin hr (hs.waiting hw hj (by simp))
        simp only [phase, hw, hj, Option.elim_some, RecvPc.toGo]
        omega
      · cases hst
  | recvStep w =>
      obtain ⟨j, hw, hst⟩ := Option.bind_eq_some_iff.mp hst
      obtain ⟨c, hc, rfl⟩ := Option.map_eq_some_iff.mp hst
      exact toGo_lt_of_received hr hw hc

/-- A worker is about to pop a message. -/
def Popping (s : Assembly Fut Job Local State bounded) : Prop :=
  ∃ w j l : ℕ, s.receiving w = some j ∧ s.channel.receivers[j]? = some (.pop l)

/-- A call can make a step that leaves the threads and the queues alone. -/
def Nears (C : Client Fut Job Local State Action Empty)
    (s : Assembly Fut Job Local State bounded) : Prop :=
  ∃ (a : AssemblyLabel Fut Job Action) (t : Assembly Fut Job Local State bounded),
    Internal s a ∧ s.step C a = some t ∧ t.threads = s.threads ∧
      t.channel.contents = s.channel.contents

/-- A send call that is part-way gives its next signal. -/
theorem nears_of_sender (hr : (system C cpus bounded).Run ok h s) {i : ℕ}
    {pc : SendPc (ThreadMessage Job)} (hi : s.channel.senders[i]? = some pc) (hpc : 0 < pc.toGo) :
    Nears C s := by
  obtain ⟨c, hc, -⟩ := (inRange_of_run hr).exists_signal hi hpc
  have hstep : s.step C (.signal i) = some { s with channel := c } := by
    cases pc with
    | signalLocal m l | signalGlobal m l => simp only [step, hi, hc, Option.map_some]
    | push m l | returned m l | panicked => exact absurd hpc (Nat.lt_irrefl 0)
  simp only [Channel.step, hi, Option.bind_some] at hc
  obtain ⟨hcontents, -⟩ :=
    Channel.contents_of_signal ((linked_of_run hr).pushed pc (List.mem_of_getElem? hi)) hc
  exact ⟨.signal i, _, trivial, hstep, rfl, hcontents⟩

/-- A worker that waits for a message begins its receive loop. -/
theorem nears_of_begin {w : ℕ} (hw : s.threads.bin.workers[w]? = some .recv)
    (havailable : s.available (.worker w) = true) : Nears C s := by
  refine ⟨.recvImmediate w, { s with
    channel := { s.channel with receivers := s.channel.receivers ++ [.immediate 0] }
    receiving := Function.update s.receiving w (some s.channel.receivers.length) },
    trivial, ?_, rfl, rfl⟩
  simp only [step, hw, if_pos havailable]
  rfl

/-- A receive call that neither waits nor is about to pop goes on. -/
theorem nears_of_receiver (hr : (system C cpus bounded).Run ok h s) {w j : ℕ}
    {pc : RecvPc (ThreadMessage Job)} (hw : s.receiving w = some j)
    (hj : s.channel.receivers[j]? = some pc) (hpop : ∀ l, pc ≠ .pop l)
    (hall : pc = .all → s.channel.globalSemaphore ≠ 0) : Nears C s := by
  obtain ⟨h', hc⟩ := channel_of_run hr
  have hunpanicked := ((Channel.inv_of_run hc).sound pc (List.mem_of_getElem? hj)).unpanicked
  obtain ⟨pc', hj', -, hsome⟩ := (linked_of_run hr).receiving w j hw
  obtain rfl : pc' = pc := Option.some.inj (hj'.symm.trans hj)
  have hlt := (List.getElem?_eq_some_iff.mp hj).1
  by_cases hnone : pc' = .returned none
  · subst hnone
    refine ⟨.recvAll w, { s with
      channel := { s.channel with receivers := s.channel.receivers ++ [.all] }
      receiving := Function.update s.receiving w (some s.channel.receivers.length) },
      trivial, ?_, rfl, rfl⟩
    simp only [step, hw, Option.bind_some, hj]
    rfl
  · have hreturned : ∀ r, pc' ≠ .returned r := by
      rintro (_ | r) rfl
      · exact hnone rfl
      · exact hsome r rfl
    obtain ⟨c, hst⟩ := (inRange_of_run hr).exists_recvStep hj hunpanicked hreturned hall
    have hstep : s.step C (.recvStep w) = some (s.received C w j c) := by
      simp only [step, hw, Option.bind_some, hst, Option.map_some]
    simp only [Channel.step, hj, Option.bind_some] at hst
    have hat : ∀ pc₁, c.receivers = s.channel.receivers.set j pc₁ →
        c.receivers[j]? = some pc₁ := by
      intro pc₁ hset
      rw [hset, List.getElem?_set_self hlt]
    cases Channel.recvMoves_of_recvStep hst with
    | @pop l m hpc => exact absurd hpc (hpop l)
    | @quiet pc₁ ht hsenders hcontents hpc hholding hreturned =>
        rw [received_quiet (hat _ ht) hholding hreturned] at hstep
        exact ⟨.recvStep w, _, trivial, hstep, rfl, hcontents⟩
    | @returned m l hpc ht hsenders hcontents =>
        rw [received_returned (hat _ ht)] at hstep
        exact ⟨.recvStep w, _, trivial, hstep, rfl, hcontents⟩

theorem available_of_over (hover : ∀ pc ∈ s.channel.senders, pc.over = true) (p : Party)
    (hp : ∀ w, p = .worker w → s.receiving w = none) : s.available p = true := by
  simp only [available, Bool.and_eq_true]
  constructor
  · rw [Option.all_eq_true]
    intro i _
    rw [Option.all_eq_true]
    intro pc hpc
    exact hover pc (List.mem_of_getElem? hpc)
  · cases p with
    | worker w =>
        dsimp only
        rw [hp w rfl]
        rfl
    | call c => rfl
    | timer i => rfl

/-- Every call that has not returned waits in `recv_all`. -/
structure Waiting (s : Assembly Fut Job Local State bounded) : Prop where
  senders : ∀ pc ∈ s.channel.senders, pc.over = true
  receivers : ∀ (w j : ℕ) (pc : RecvPc (ThreadMessage Job)), s.receiving w = some j →
    s.channel.receivers[j]? = some pc → pc = .all ∧ s.channel.globalSemaphore = 0
  workers : ∀ w : ℕ, s.threads.bin.workers[w]? = some .recv → ∃ j, s.receiving w = some j

/-- If no call can go on, then all wait, unless one is about to pop. -/
theorem waiting_or_nears (hr : (system C cpus bounded).Run ok h s) :
    Waiting s ∨ Popping s ∨ Nears C s := by
  have hs := linked_of_run hr
  by_cases hnears : Nears C s
  · exact .inr (.inr hnears)
  by_cases hpop : Popping s
  · exact .inr (.inl hpop)
  have hsenders : ∀ pc ∈ s.channel.senders, pc.over = true := by
    intro pc hpc
    obtain ⟨i, hi⟩ := List.mem_iff_getElem?.mp hpc
    cases pc with
    | push m l => exact absurd rfl (hs.pushed _ hpc m l)
    | signalLocal m l => exact absurd (nears_of_sender hr hi Nat.two_pos) hnears
    | signalGlobal m l => exact absurd (nears_of_sender hr hi Nat.one_pos) hnears
    | returned m l => rfl
    | panicked => rfl
  refine .inl ⟨hsenders, ?_, ?_⟩
  · intro w j pc hw hj
    by_contra hwait
    refine hnears (nears_of_receiver hr hw hj ?_ ?_)
    · rintro l rfl
      exact hpop ⟨w, j, l, hw, hj⟩
    · intro hall hzero
      exact hwait ⟨hall, hzero⟩
  · intro w hw
    by_contra hnone
    refine hnears (nears_of_begin hw (available_of_over hsenders _ ?_))
    rintro w' ⟨⟩
    exact Option.eq_none_iff_forall_ne_some.mpr fun j hj => hnone ⟨j, hj⟩

/-- A worker that waits when all calls wait finds the queues empty. -/
theorem Waiting.contents (hr : (system C cpus bounded).Run ok h s) (hwait : Waiting s) {w : ℕ}
    (hw : s.threads.bin.workers[w]? = some .recv) :
    ∀ q ∈ s.channel.contents, q.items = [] := by
  have hs := linked_of_run hr
  obtain ⟨h', hc⟩ := channel_of_run hr
  obtain ⟨j, hj⟩ := hwait.workers w hw
  obtain ⟨pc, hpc, -⟩ := hs.receiving w j hj
  obtain ⟨rfl, hzero⟩ := hwait.receivers w j pc hj hpc
  have hquiet : s.channel.Quiet := by
    refine ⟨fun pc hpc hpart => ?_, fun pc hpc hpart => ?_⟩
    · have hover := hwait.senders pc hpc
      cases pc <;> first | exact hpart | cases hover
    · obtain ⟨j', hj'⟩ := List.mem_iff_getElem?.mp hpc
      have hne : ∀ r, pc ≠ .returned r := by
        rintro r rfl
        exact hpart
      obtain ⟨w', hw'⟩ := hs.owned j' pc hj' hne
      obtain ⟨rfl, -⟩ := hwait.receivers w' j' pc hw' hj'
      exact hpart
  have hinv := Channel.inv_of_run hc
  have hglobal := hinv.global hquiet
  rw [hzero, eq_comm, weight_eq_zero] at hglobal
  intro q hq
  obtain ⟨one, hone, rfl⟩ := List.mem_map.mp hq
  have hlength := hinv.locals hquiet hone
  rw [hglobal one hone] at hlength
  rw [Fifo.items_map, List.length_eq_zero_iff.mp hlength.symm, List.map_nil]

/-- From `s` to `t` the calls of the channel alone have brought the worker the first message of a
level. -/
structure Takes (C : Client Fut Job Local State Action Empty)
    (s t : Assembly Fut Job Local State bounded) (w level : ℕ) (m : ThreadMessage Job) : Prop where
  waits : s.threads.bin.workers[w]? = some .recv
  received : Received s.channel.contents level m t.channel.contents
  threads : t.threads = s.threads.setBin (s.threads.bin.setWorker w (Bin.handle C m))

/-- A pop finds a message. -/
theorem takes_of_pop (hr : (system C cpus bounded).Run ok h s) {w j l : ℕ}
    (hw : s.receiving w = some j) (hj : s.channel.receivers[j]? = some (.pop l)) :
    ∃ t level m, s.step C (.recvStep w) = some t ∧ Takes C s t w level m := by
  have hrecv := (linked_of_run hr).waiting hw hj (by simp)
  have hlt := (List.getElem?_eq_some_iff.mp hj).1
  obtain ⟨c, hc⟩ := (inRange_of_run hr).exists_recvStep hj trivial (by simp) (by simp)
  have hstep : s.step C (.recvStep w) = some (s.received C w j c) := by
    simp only [step, hw, Option.bind_some, hc, Option.map_some]
  have hmoves := hc
  simp only [Channel.step, hj, Option.bind_some] at hmoves
  cases Channel.recvMoves_of_recvStep hmoves with
  | @pop l' m hpc ht hsenders hreceived =>
      have hat : c.receivers[j]? = some (.holding m l') := by
        rw [ht, List.getElem?_set_self hlt]
      rw [received_holding hat] at hstep
      exact ⟨_, l', m.element, hstep, hrecv, hreceived, rfl⟩
  | @quiet pc' ht hsenders hcontents hpc hholding hreturned hless =>
      -- only a panic is behind the pop, and the receive calls do not panic
      obtain ⟨h', hchannel⟩ := channel_of_run hr
      have hmem : pc' ∈ c.receivers := by
        rw [ht]
        exact List.mem_set hlt pc'
      have hnext : (Channel.system (ThreadMessage Job) bounded 2).Run Channel.OnlyLevelZero
          (.recvStep j :: h') c := hchannel.snoc trivial hc
      have hunpanicked := ((Channel.inv_of_run hnext).sound pc' hmem).unpanicked
      cases pc' with
      | holding m l => exact absurd rfl (hholding m l)
      | noElementFound | unwrapNone | indexOutOfBounds => exact hunpanicked.elim
      | returned r =>
          cases r with
          | none =>
              simp only [RecvPc.toGo] at hless
              omega
          | some r => exact absurd rfl (hreturned r)
      | _ =>
          simp only [RecvPc.toGo] at hless
          omega
  | returned hpc => cases hpc

/-- How the calls of the channel come to their end from `s`, in whatever order they go on: after at
most `toGo` steps all of them wait or are over, and then no message is left for a worker in its
receive loop. If there is a message and such a worker to begin with, the calls can bring it to a
worker before anything else happens. -/
structure Settles (C : Client Fut Job Local State Action Empty) (cpus : UInt16)
    (s : Assembly Fut Job Local State bounded) : Prop where
  bound : ∀ h' t, (system C cpus bounded).Path Internal s h' t → h'.length ≤ s.toGo
  settled : ∀ h' t, (system C cpus bounded).Path Internal s h' t →
    (∀ a, Internal t a → t.step C a = none) → .recv ∈ t.threads.bin.workers →
      ∀ q ∈ t.channel.contents, q.items = []
  takes : .recv ∈ s.threads.bin.workers → (∃ q ∈ s.channel.contents, q.items ≠ []) →
    ∃ h' t w level m, (system C cpus bounded).Path Internal s h' t ∧ Takes C s t w level m

/-- No step of a call is possible. -/
theorem waiting_of_settled (hr : (system C cpus bounded).Run ok h s)
    (hsettled : ∀ a, Internal s a → s.step C a = none) : Waiting s := by
  rcases waiting_or_nears hr with hwait | ⟨w, j, l, hw, hj⟩ | ⟨a, t, ha, hst, -⟩
  · exact hwait
  · obtain ⟨t, level, m, hst, -⟩ := takes_of_pop hr hw hj
    rw [hsettled (.recvStep w) trivial] at hst
    cases hst
  · rw [hsettled a ha] at hst
    cases hst

/-- While a queue holds a message and a worker is in its receive loop, the calls that are under way
bring some worker the first message of some level, and change nothing else. -/
theorem exists_takes (hr : (system C cpus bounded).Reachable s)
    (hrecv : .recv ∈ s.threads.bin.workers)
    (hmessage : ∃ q ∈ s.channel.contents, q.items ≠ []) :
    ∃ h' t w' level m, (system C cpus bounded).Path Internal s h' t ∧
      Takes C s t w' level m := by
  obtain ⟨w, hw⟩ := List.mem_iff_getElem?.mp hrecv
  obtain ⟨h₀, t, hp, ⟨⟨h, ht⟩, hthreads, hcontents⟩, w', j, l, hw', hj⟩ :=
    Lts.exists_path_of_measure (system C cpus bounded) Internal
      (P := fun t => (system C cpus bounded).Reachable t ∧ t.threads = s.threads ∧
        t.channel.contents = s.channel.contents) (Q := Popping) toGo (by
      rintro t ⟨⟨h, ht⟩, hthreads, hcontents⟩ hpop
      rcases waiting_or_nears ht with hwait | hpop' | ⟨a, u, ha, hst, hthreads', hcontents'⟩
      · obtain ⟨q, hq, hne⟩ := hmessage
        rw [← hcontents] at hq
        rw [← hthreads] at hw
        exact absurd (hwait.contents ht hw q hq) hne
      · exact absurd hpop' hpop
      · exact ⟨a, u, ha, hst, ⟨⟨_, ht.snoc trivial hst⟩, hthreads'.trans hthreads,
          hcontents'.trans hcontents⟩, toGo_lt_of_step ht ha hst⟩) ⟨hr, rfl, rfl⟩
  obtain ⟨u, level, m, hst, htakes⟩ := takes_of_pop ht hw' hj
  refine ⟨.recvStep w' :: h₀, u, w', level, m, hp.snoc trivial hst, ?_, ?_, ?_⟩
  · rw [← hthreads]
    exact htakes.waits
  · rw [← hcontents]
    exact htakes.received
  · rw [← hthreads]
    exact htakes.threads

theorem settles_of_reachable (hr : (system C cpus bounded).Reachable s) : Settles C cpus s where
  bound := by
    obtain ⟨h, hr⟩ := hr
    intro h' t hp
    have hlen : h'.length + t.toGo ≤ s.toGo ∧ ∃ h, (system C cpus bounded).Run Free h t := by
      refine hp.induct (P := fun h' t => h'.length + t.toGo ≤ s.toGo ∧
        ∃ h, (system C cpus bounded).Run Free h t) ⟨?_, h, hr⟩ ?_
      · rw [List.length_nil, Nat.zero_add]
      · intro h' t a u _ ⟨hle, h, ht⟩ ha hst
        have hlt := toGo_lt_of_step ht ha hst
        refine ⟨?_, _, ht.snoc trivial hst⟩
        rw [List.length_cons]
        omega
    omega
  settled := by
    obtain ⟨h, hr⟩ := hr
    intro h' t hp hsettled hrecv
    have ht : (system C cpus bounded).Run Free (h' ++ h) t :=
      hr.trans (hp.mono fun _ _ _ => trivial)
    obtain ⟨w, hw⟩ := List.mem_iff_getElem?.mp hrecv
    exact (waiting_of_settled ht hsettled).contents ht hw
  takes := exists_takes hr

/-- The job is pushed and not signalled while the worker waits. -/
theorem settles_pushedJob : ∃ s : Assembly Empty Unit Unit Unit 1,
    .recv ∈ s.threads.bin.workers ∧ (∃ q ∈ s.channel.contents, q.items ≠ []) ∧
      Settles Threads.returnsAtOnce 1 s :=
  ⟨_, List.mem_singleton.mpr rfl, ⟨_, List.mem_of_getElem? (i := 1) rfl, List.cons_ne_nil _ _⟩,
    settles_of_reachable ⟨_, Lts.path_of_exec (oneJob.take 8) rfl⟩⟩

end Assembly
end Kiruna.Tpc
